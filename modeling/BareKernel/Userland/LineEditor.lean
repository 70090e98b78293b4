import BareKernel.Userland.Parse
import Mathlib.Data.Int.ConditionallyCompleteOrder
import Mathlib.Data.List.Forall2

/-! The line editor of `shell.c`: the loop of `shell` with its buffer. The buffer is shared with
`chekCommand`, which overwrites the line with spaces when it has executed it; what the command
does is left out. Above the loop stands what an editor is for: a text and the lines submitted. -/

namespace BareKernel.Userland

open Function (update)
open Links

def newline : Char := Char.ofNat 10

def backspace : Char := Char.ofNat 1

/-- The variables of the shell; further, each access to `buffer` with the `index` at that time, and
`index` and `buffer` at each call of `chekCommand`, where `parseCommand` reads the line. -/
structure Editor where
  buffer : ℤ → Char
  index : ℤ
  ultimaLetra : ℤ
  accesses : List (ℤ × ℤ)
  commands : List (ℤ × (ℤ → Char))

namespace Editor

def initial : Editor := ⟨fun _ => nul, 0, 0, [], []⟩

/-- `buffer[index] = c`. -/
def put (s : Editor) (c : Char) : Editor :=
  { s with buffer := update s.buffer s.index c, accesses := s.accesses ++ [(s.index, s.index)] }

def clearBuffer (s : Editor) : Editor :=
  { s with
    buffer := fun i => if 0 ≤ i ∧ i < s.index then ' ' else s.buffer i
    accesses := s.accesses ++ (List.range s.index.toNat).map fun i : ℕ => (s.index, (i : ℤ)) }

def chekCommand (s : Editor) : Editor :=
  { ({ s with commands := s.commands ++ [(s.index, s.buffer)] } : Editor).clearBuffer with index := 0 }

/-- The beginning of the loop. -/
def checkFull (s : Editor) : Editor :=
  if s.index = wordBufferSize - 1 then { s.chekCommand with index := 0, ultimaLetra := 0 } else s

/-- The rest of the loop, with the character that `getKey` delivered. -/
def type (s : Editor) (letra : Char) : Editor :=
  if s.index = 0 ∧ letra = newline then { s with index := 0 }
  else if letra = backspace ∧ 0 < s.index then ({ s with index := s.index - 1 } : Editor).put nul
  else if letra = newline ∧ 0 < s.index then
    let s := s.put nul
    let s := { s with index := s.index + 1 }
    { s.chekCommand with index := 0 }
  else if letra ≠ backspace then
    let s :=
      if letra = ' ' then
        let s := s.put ' '
        { s with index := s.index + 1 }
      else
        let s := s.put letra
        { s with index := s.index + 1, ultimaLetra := s.index + 1 }
    s.put nul
  else s

/-- The shell waits for its next character. -/
def shell (letters : List Char) : Editor :=
  letters.foldl (fun s letra => (s.type letra).checkFull) initial.clearBuffer.checkFull

end Editor

/-- What has been typed since the last command, and the commands submitted. -/
structure Typed where
  text : List Char
  commands : List (List Char)

namespace Typed

def submit (t : Typed) : Typed := ⟨[], t.commands ++ [t.text]⟩

/-- An empty line is not submitted, and a full one is at once. -/
def type (t : Typed) (c : Char) : Typed :=
  if c = newline then if t.text = [] then t else t.submit
  else if c = backspace then { t with text := t.text.dropLast }
  else
    let t := { t with text := t.text ++ [c] }
    if t.text.length = wordBufferSize - 1 then t.submit else t

def typeAll (letters : List Char) : Typed := letters.foldl type ⟨[], []⟩

end Typed

/-- An `index` and a place inside of the buffer. -/
def InBuffer (a : ℤ × ℤ) : Prop := a.1 ∈ Set.Ico 0 (wordBufferSize : ℤ) ∧ a.2 ∈ Set.Ico 0 (wordBufferSize : ℤ)

/-- The buffer holds a string that ends inside of it. -/
def HoldsLine (call : ℤ × (ℤ → Char)) (line : List Char) : Prop :=
  call.1 ∈ Set.Ico 0 (wordBufferSize : ℤ) ∧ Spells nul (fun i : ℕ => call.2 i) line ∧ line.length < wordBufferSize

/-- The loop before it waits for a character. -/
structure Editor.Matches (s : Editor) (t : Typed) : Prop where
  index : s.index = t.text.length
  room : t.text.length < wordBufferSize - 1
  chars : (List.range t.text.length).map (fun i : ℕ => s.buffer i) = t.text
  free : nul ∉ t.text
  accesses : ∀ a ∈ s.accesses, InBuffer a
  commands : List.Forall₂ HoldsLine s.commands t.commands

/-- The loop when it has written a character. -/
structure Editor.Written (s : Editor) (t : Typed) : Prop where
  index : s.index = t.text.length
  room : t.text.length ≤ wordBufferSize - 1
  spells : Spells nul (fun i : ℕ => s.buffer i) t.text
  accesses : ∀ a ∈ s.accesses, InBuffer a
  commands : List.Forall₂ HoldsLine s.commands t.commands

variable {s : Editor} {t : Typed} {c : Char} {letters text : List Char}

/-! ### Parts of the loop -/

theorem Editor.put_keeps (hindex : s.index = text.length)
    (hchars : (List.range text.length).map (fun i : ℕ => s.buffer i) = text) (c : Char) :
    (List.range text.length).map (fun i : ℕ => (s.put c).buffer i) = text := by
  conv_rhs => rw [← hchars]
  apply List.map_congr_left
  intro i hi
  rw [List.mem_range] at hi
  exact Function.update_of_ne (by omega) ..

@[simp] theorem Editor.put_self (s : Editor) (c : Char) : (s.put c).buffer s.index = c :=
  Function.update_self ..

theorem Editor.put_chars (hindex : s.index = text.length)
    (hchars : (List.range text.length).map (fun i : ℕ => s.buffer i) = text) (c : Char) :
    (List.range (text.length + 1)).map (fun i : ℕ => (s.put c).buffer i) = text ++ [c] := by
  rw [List.range_succ, List.map_append, Editor.put_keeps hindex hchars, List.map_singleton, ← hindex,
    Editor.put_self]

theorem Editor.put_spells (hindex : s.index = text.length)
    (hchars : (List.range text.length).map (fun i : ℕ => s.buffer i) = text) (hfree : nul ∉ text) :
    Spells nul (fun i : ℕ => (s.put nul).buffer i) text := by
  have hmark := Editor.put_self s nul
  rw [hindex] at hmark
  exact ⟨Editor.put_keeps hindex hchars nul, hmark, hfree⟩

theorem Editor.put_accesses (hacc : ∀ a ∈ s.accesses, InBuffer a) (h0 : 0 ≤ s.index) (hlt : s.index < wordBufferSize)
    (c : Char) : ∀ a ∈ (s.put c).accesses, InBuffer a := by
  intro a ha
  rcases List.mem_append.mp ha with ha | ha
  · exact hacc a ha
  · rw [List.mem_singleton.mp ha]
    exact ⟨⟨h0, hlt⟩, h0, hlt⟩

theorem Editor.clearBuffer_accesses (hacc : ∀ a ∈ s.accesses, InBuffer a) (hlt : s.index < wordBufferSize) :
    ∀ a ∈ s.clearBuffer.accesses, InBuffer a := by
  intro a ha
  rcases List.mem_append.mp ha with ha | ha
  · exact hacc a ha
  · obtain ⟨i, hi, rfl⟩ := List.mem_map.mp ha
    rw [List.mem_range] at hi
    refine ⟨⟨?_, hlt⟩, ?_, ?_⟩ <;> dsimp only <;> omega

/-- A line that is executed is the next command, and the shell begins a new one. -/
theorem Editor.chekCommand_matches {cs : List (List Char)} (hlt : s.index < wordBufferSize)
    (hacc : ∀ a ∈ s.accesses, InBuffer a) (hcs : List.Forall₂ HoldsLine s.commands cs)
    (hline : HoldsLine (s.index, s.buffer) text) :
    s.chekCommand.Matches ⟨[], cs ++ [text]⟩ where
  index := rfl
  room := show 0 < wordBufferSize - 1 by decide
  chars := rfl
  free := List.not_mem_nil
  accesses := Editor.clearBuffer_accesses (s := { s with commands := s.commands ++ [(s.index, s.buffer)] }) hacc hlt
  commands := List.rel_append hcs (.cons hline .nil)

/-! ### One character -/

theorem Editor.Matches.inside (h : s.Matches t) : 0 ≤ s.index ∧ s.index < wordBufferSize - 1 := by
  have hroom := h.room
  rw [h.index]
  unfold wordBufferSize at *
  omega

theorem Editor.Matches.index_eq_zero (h : s.Matches t) : s.index = 0 ↔ t.text = [] := by
  rw [h.index, ← List.length_eq_zero_iff]
  omega

theorem Editor.Matches.checkFull (h : s.Matches t) : s.checkFull = s := by
  unfold Editor.checkFull
  rw [if_neg (by have := h.inside; omega)]

/-- The backspace takes the last character away, and the mark stands in its place. -/
theorem Editor.Matches.erase (h : s.Matches t) (hpos : 0 < s.index) :
    (({ s with index := s.index - 1 } : Editor).put nul).Matches { t with text := t.text.dropLast } := by
  obtain ⟨h0, hlt⟩ := h.inside
  have hindex : s.index - 1 = (t.text.dropLast.length : ℤ) := by
    have := h.index
    rw [List.length_dropLast]
    omega
  have hchars : (List.range t.text.dropLast.length).map (fun i : ℕ => s.buffer i) = t.text.dropLast := by
    conv_rhs => rw [← h.chars, List.dropLast_eq_take, ← List.map_take, List.take_range]
    simp
  exact {
    index := hindex
    room := by
      have hroom := h.room
      rw [List.length_dropLast]
      omega
    chars := Editor.put_keeps (s := { s with index := s.index - 1 }) hindex hchars nul
    free := fun hmem => h.free (List.mem_of_mem_dropLast hmem)
    accesses := Editor.put_accesses (s := { s with index := s.index - 1 }) h.accesses (show 0 ≤ s.index - 1 by omega)
      (show s.index - 1 < wordBufferSize by omega) nul
    commands := h.commands }

theorem Editor.Matches.enter (h : s.Matches t) :
    ({ s.put nul with index := s.index + 1 } : Editor).chekCommand.Matches t.submit := by
  obtain ⟨h0, hlt⟩ := h.inside
  have hin : s.index + 1 < (wordBufferSize : ℤ) := by omega
  apply Editor.chekCommand_matches (s := { s.put nul with index := s.index + 1 }) hin
  · exact Editor.put_accesses h.accesses h0 (by omega) nul
  · exact h.commands
  · exact ⟨⟨show 0 ≤ s.index + 1 by omega, hin⟩, Editor.put_spells h.index h.chars h.free,
      lt_of_lt_of_le h.room (Nat.sub_le ..)⟩

/-- A character that is written, with the mark behind it. -/
def Editor.write (s : Editor) (c : Char) (ultimaLetra : ℤ) : Editor :=
  ({ s.put c with index := s.index + 1, ultimaLetra := ultimaLetra } : Editor).put nul

theorem Editor.Matches.write (h : s.Matches t) (hc : c ≠ nul) (n : ℤ) :
    (s.write c n).Written { t with text := t.text ++ [c] } := by
  obtain ⟨h0, hlt⟩ := h.inside
  have hin : s.index + 1 < (wordBufferSize : ℤ) := by omega
  have hindex : s.index + 1 = ((t.text ++ [c]).length : ℤ) := by
    rw [List.length_append, List.length_singleton, h.index, Nat.cast_add, Nat.cast_one]
  have hchars : (List.range (t.text ++ [c]).length).map (fun i : ℕ => (s.put c).buffer i) = t.text ++ [c] := by
    rw [List.length_append]
    exact Editor.put_chars h.index h.chars c
  have hfree : nul ∉ t.text ++ [c] := by
    rw [List.mem_append, List.mem_singleton]
    rintro (hmem | rfl)
    · exact h.free hmem
    · exact hc rfl
  exact {
    index := hindex
    room := by
      rw [List.length_append]
      exact h.room
    spells := Editor.put_spells (s := { s.put c with index := s.index + 1, ultimaLetra := n }) hindex hchars hfree
    accesses := Editor.put_accesses (s := { s.put c with index := s.index + 1, ultimaLetra := n })
      (Editor.put_accesses h.accesses h0 (by omega) c) (show 0 ≤ s.index + 1 by omega) hin nul
    commands := h.commands }

/-- The text is submitted when the buffer is full. -/
theorem Editor.Written.checkFull (h : s.Written t) :
    s.checkFull.Matches (if t.text.length = wordBufferSize - 1 then t.submit else t) := by
  have hroom := h.room
  have hindex := h.index
  unfold Editor.checkFull
  by_cases hfull : t.text.length = wordBufferSize - 1
  · have hi : s.index = wordBufferSize - 1 := by
      rw [hindex, hfull]
      rfl
    have hlt : s.index < wordBufferSize := by omega
    rw [if_pos hi, if_pos hfull]
    have hm := Editor.chekCommand_matches hlt h.accesses h.commands
      ⟨⟨by omega, hlt⟩, h.spells, by rw [hfull]; exact Nat.sub_lt (by decide) Nat.one_pos⟩
    exact ⟨hm.index, hm.room, hm.chars, hm.free, hm.accesses, hm.commands⟩
  · have hi : s.index ≠ wordBufferSize - 1 := by
      intro hi
      apply hfull
      unfold wordBufferSize at *
      omega
    rw [if_neg hi, if_neg hfull]
    exact ⟨hindex, by omega, h.spells.chars, h.spells.free, h.accesses, h.commands⟩

/-- A run of the loop does to the text what its character says. -/
theorem Editor.Matches.type (h : s.Matches t) (hc : c ≠ nul) : ((s.type c).checkFull).Matches (t.type c) := by
  have h0 := h.inside.1
  unfold Editor.type Typed.type
  by_cases hnew : c = newline
  · subst hnew
    by_cases htext : t.text = []
    · have hi : s.index = 0 := h.index_eq_zero.mpr htext
      have hsame : ({ s with index := 0 } : Editor) = s := by rw [← hi]
      rw [if_pos ⟨hi, rfl⟩, if_pos rfl, if_pos htext, hsame, h.checkFull]
      exact h
    · have hi : s.index ≠ 0 := fun hi => htext (h.index_eq_zero.mp hi)
      rw [if_neg (fun hand => hi hand.1), if_neg (fun hand => absurd hand.1 (by decide)),
        if_pos ⟨rfl, lt_of_le_of_ne h0 hi.symm⟩, if_pos rfl, if_neg htext]
      have henter := h.enter
      have hfull := henter.checkFull
      exact hfull.symm ▸ henter
  · rw [if_neg (fun hand => hnew hand.2), if_neg hnew]
    by_cases hback : c = backspace
    · rw [if_pos hback]
      by_cases hi : s.index = 0
      · rw [if_neg (by omega), if_neg (fun hand => hnew hand.1), if_neg (fun hne => hne hback), h.checkFull]
        rw [h.index_eq_zero.mp hi]
        have htext := h.index_eq_zero.mp hi
        rcases t with ⟨text, commands⟩
        cases htext
        exact h
      · have herase := h.erase (lt_of_le_of_ne h0 (Ne.symm hi))
        rw [if_pos ⟨hback, lt_of_le_of_ne h0 (Ne.symm hi)⟩, herase.checkFull]
        exact herase
    · rw [if_neg (fun hand => hback hand.1), if_neg (fun hand => hnew hand.1), if_pos hback, if_neg hback]
      by_cases hspace : c = ' '
      · subst hspace
        rw [if_pos rfl]
        exact (h.write hc s.ultimaLetra).checkFull
      · rw [if_neg hspace]
        exact (h.write hc (s.index + 1)).checkFull

/-! ### Every character -/

theorem Editor.initial_matches : initial.clearBuffer.checkFull.Matches ⟨[], []⟩ := by
  have h : initial.clearBuffer.Matches ⟨[], []⟩ :=
    ⟨rfl, show 0 < wordBufferSize - 1 by decide, rfl, List.not_mem_nil, fun a ha => absurd ha List.not_mem_nil, .nil⟩
  rw [h.checkFull]
  exact h

theorem Editor.shell_matches (hnul : nul ∉ letters) : (Editor.shell letters).Matches (Typed.typeAll letters) := by
  unfold Editor.shell Typed.typeAll
  induction letters using List.reverseRecOn with
  | nil => exact Editor.initial_matches
  | append_singleton letters c ih =>
    rw [List.foldl_concat, List.foldl_concat]
    rw [List.mem_append, List.mem_singleton, not_or] at hnul
    exact (ih hnul.1).type (Ne.symm hnul.2)

/-- Whatever is typed, the commands are the lines that an editor submits, and each access to the
buffer is inside of it. -/
theorem shell_submits (hnul : nul ∉ letters) :
    List.Forall₂ HoldsLine (Editor.shell letters).commands (Typed.typeAll letters).commands ∧
      ∀ a ∈ (Editor.shell letters).accesses, InBuffer a :=
  have h := Editor.shell_matches hnul
  ⟨h.commands, h.accesses⟩

theorem shell_submits_corrected :
    List.Forall₂ HoldsLine (Editor.shell ['p', 'a', backspace, 's', newline, newline]).commands [['p', 's']] ∧
      ∀ a ∈ (Editor.shell ['p', 'a', backspace, 's', newline, newline]).accesses, InBuffer a :=
  shell_submits (show nul ∉ ['p', 'a', backspace, 's', newline, newline] by decide)

end BareKernel.Userland

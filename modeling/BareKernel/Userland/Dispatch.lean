import BareKernel.Userland.Parse
import Mathlib.Data.List.TakeWhile

/-! How `shell.c` executes a line: `chekCommand` looks for a pipe, `newComand` copies the arguments
of a command and calls it through the table. What they access is listed: entries of the table of
arguments, places of the copy, and entries of the table of commands. The copy takes one entry too
many, so only a line that asks for the description of a command keeps to its arrays. -/

namespace BareKernel.Userland

open Links

def commands : List (List Char) :=
  ["help", "time", "zoom", "clear", "regs", "divCero", "invalidOp", "test", "block", "unblock", "nice", "yeild",
    "kill", "ps", "loop", "mem", "cat", "wc", "filter", "shell", "phylo", "echo"].map String.toList

def numberOfCommands : ℤ := 22

/-- The loop over the commands: the number of the first one that is `input`. -/
def findCommand (input : List Char) : Option ℤ :=
  (commands.findIdx? fun command => strCompare command input).map fun (j : ℕ) => (j : ℤ) + 1

/-- `index` is the shell's place in its line. -/
def processCommand (index : ℤ) (input : List Char) : ℤ :=
  if index = 0 ∧ input.getD 0 nul = nul then -1
  else
    match findCommand input with
    | some num => num
    | none =>
      let commandPart := (input.takeWhile (· ≠ ' ')).take (wordBufferSize - 1)
      (findCommand commandPart).getD 0

/-- What a line makes the shell access. -/
inductive Access where
  /-- An entry of `args`, in a function that has the entries from `lo` on up to `hi`. -/
  | read (i lo hi : ℤ)
  /-- The length of the array `argv1`. -/
  | declare (length : ℤ)
  /-- A place of `argv1`, which has `length` places. -/
  | store (i length : ℤ)
  /-- An entry of the table of commands. -/
  | call (commandNum : ℤ)

def Access.Inside : Access → Prop
  | .read i lo hi => lo ≤ i ∧ i < hi
  | .declare length => 0 ≤ length
  | .store i length => 0 ≤ i ∧ i < length
  | .call commandNum => 0 ≤ commandNum ∧ commandNum ≤ numberOfCommands

/-- Execute the command whose name and arguments are the `argc` entries from `lo` on. -/
def newComand (cmd : Command) (index : ℤ) (lo argc : ℕ) : List Access :=
  let read (i : ℕ) : Access := .read (lo + i) lo (lo + argc)
  let background := decide (1 < argc) && strCompare (cmd.arg (lo + 1)) ['&']
  let auxArgc : ℕ := if background then 2 else 1
  let length : ℤ := (argc : ℤ) - auxArgc
  let copy (i : ℕ) : List Access := [read i, .store (i - auxArgc) length]
  [read 0] ++ (if 1 < argc then [read 1] else []) ++ [.declare length] ++
    (List.range' auxArgc (argc + 1 - auxArgc)).flatMap copy ++ [.call (processCommand index (cmd.arg lo))]

/-- The last argument that is a pipe symbol, `0` when there is none. -/
def pipePos (cmd : Command) : ℕ :=
  (List.range cmd.argCount).foldl (fun pos i => if strCompare (cmd.arg i) ['|'] then i else pos) 0

def chekCommand (cmd : Command) (index : ℤ) : List Access :=
  let read (i : ℕ) : Access := .read i 0 cmd.argCount
  let commandNum := processCommand index (cmd.arg 0)
  let asked := [read 0] ++ if 0 < commandNum then [read 1] else []
  if 0 < commandNum ∧ strCompare (cmd.arg 1) "-info".toList then asked ++ [read 1]
  else
    let searched := asked ++ (List.range cmd.argCount).map read
    let pos := pipePos cmd
    if pos = 0 then searched ++ newComand cmd index 0 cmd.argCount
    else searched ++ newComand cmd index 0 pos ++ newComand cmd index (pos + 1) (cmd.argCount - (pos + 1))

/-- The line is parsed, and executing it stays inside of the arrays. -/
def StaysInside (heap : UsrHeap) (index : ℤ) (line : List Char) : Prop :=
  ∃ cmd, parseCommand heap line = some cmd ∧ ∀ a ∈ chekCommand cmd index, a.Inside

/-- The line asks for the description of a command. -/
def AsksInfo (line : List Char) : Prop :=
  ∃ name rest, tokens line = name :: "-info".toList :: rest ∧ name ∈ commands

variable {heap : UsrHeap} {line w : List Char} {cmd : Command} {index : ℤ} {lo argc : ℕ} {ts : List (List Char)}

/-! ### The table of commands -/

theorem findCommand_isSome : (findCommand w).isSome = true ↔ w ∈ commands := by
  rw [findCommand, Option.isSome_map, List.findIdx?_isSome, List.any_eq_true]
  constructor
  · rintro ⟨command, hmem, heq⟩
    exact strCompare_iff.mp heq ▸ hmem
  · exact fun hmem => ⟨w, hmem, strCompare_iff.mpr rfl⟩

theorem findCommand_pos {num : ℤ} (h : findCommand w = some num) : 0 < num := by
  obtain ⟨j, -, rfl⟩ := Option.map_eq_some_iff.mp h
  omega

theorem processCommand_pos (h : Piece ' ' (maxArgLen - 1) w) (hnul : nul ∉ w) (index : ℤ) :
    0 < processCommand index w ↔ w ∈ commands := by
  have hfirst : w.getD 0 nul ≠ nul := by
    rw [List.getD_eq_getElem _ _ (List.length_pos_of_ne_nil h.ne_nil)]
    exact fun he => hnul (he ▸ List.getElem_mem _)
  have hpart : (w.takeWhile (· ≠ ' ')).take (wordBufferSize - 1) = w := by
    have hall : w.takeWhile (· ≠ ' ') = w := by
      rw [List.takeWhile_eq_self_iff]
      intro x hx
      rw [decide_eq_true_eq]
      rintro rfl
      exact h.free hx
    have hle : maxArgLen - 1 ≤ wordBufferSize - 1 := by decide
    rw [hall, List.take_of_length_le (h.le.trans hle)]
  rw [processCommand, if_neg fun hand => hfirst hand.2, ← findCommand_isSome]
  cases hnum : findCommand w with
  | some num =>
    dsimp only
    exact iff_of_true (findCommand_pos hnum) rfl
  | none =>
    dsimp only
    rw [hpart, hnum]
    simp

/-! ### Leaving the arrays -/

/-- Every call of `newComand` leaves an array: without entries it reads one, and with entries
the copy is stored to behind its end. -/
theorem newComand_outside (cmd : Command) (index : ℤ) (lo argc : ℕ) :
    ∃ a ∈ newComand cmd index lo argc, ¬a.Inside := by
  rcases Nat.eq_zero_or_pos argc with rfl | hpos
  · refine ⟨.read (lo + (0 : ℕ)) lo (lo + (0 : ℕ)), ?_, fun h => ?_⟩
    · simp [newComand]
    · have hlt := h.2
      omega
  · obtain ⟨auxArgc, haux, hle⟩ : ∃ auxArgc : ℕ, auxArgc =
        (if (decide (1 < argc) && strCompare (cmd.arg (lo + 1)) ['&']) = true then 2 else 1) ∧ auxArgc ≤ argc := by
      refine ⟨_, rfl, ?_⟩
      split
      · rename_i hbackground
        have hlt := of_decide_eq_true (Bool.and_eq_true_iff.mp hbackground).1
        omega
      · exact hpos
    refine ⟨.store ((argc : ℤ) - auxArgc) ((argc : ℤ) - auxArgc), ?_, fun h => lt_irrefl _ h.2⟩
    unfold newComand
    dsimp only
    rw [← haux]
    have hlast : argc ∈ List.range' auxArgc (argc + 1 - auxArgc) := by
      rw [List.mem_range'_1]
      omega
    apply List.mem_append_left
    apply List.mem_append_right
    exact List.mem_flatMap.mpr ⟨argc, hlast, by simp⟩

theorem chekCommand_inside (cmd : Command) (index : ℤ) : (∀ a ∈ chekCommand cmd index, a.Inside) ↔
    1 < cmd.argCount ∧ 0 < processCommand index (cmd.arg 0) ∧ cmd.arg 1 = "-info".toList := by
  unfold chekCommand
  dsimp only
  by_cases hinfo : 0 < processCommand index (cmd.arg 0) ∧ strCompare (cmd.arg 1) "-info".toList = true
  · have hinfo' := strCompare_iff.mp hinfo.2
    rw [if_pos hinfo, if_pos hinfo.1]
    constructor
    · intro hall
      have hread := hall (.read (1 : ℕ) 0 cmd.argCount) (by simp)
      exact ⟨by exact_mod_cast hread.2, hinfo.1, hinfo'⟩
    · rintro ⟨hcount, -, -⟩ a ha
      have hone : a = .read (0 : ℕ) 0 cmd.argCount ∨ a = .read (1 : ℕ) 0 cmd.argCount := by
        simp only [List.mem_append, List.mem_singleton] at ha
        tauto
      rcases hone with rfl | rfl
      · exact ⟨le_rfl, by omega⟩
      · exact ⟨by decide, by exact_mod_cast hcount⟩
  · rw [if_neg hinfo]
    apply iff_of_false
    · intro hall
      by_cases hpos : pipePos cmd = 0
      · obtain ⟨a, ha, hout⟩ := newComand_outside cmd index 0 cmd.argCount
        rw [if_pos hpos] at hall
        exact hout (hall a (List.mem_append_right _ ha))
      · obtain ⟨a, ha, hout⟩ := newComand_outside cmd index 0 (pipePos cmd)
        rw [if_neg hpos] at hall
        exact hout (hall a (List.mem_append_left _ (List.mem_append_right _ ha)))
    · rintro ⟨-, hnum, harg⟩
      exact hinfo ⟨hnum, strCompare_iff.mpr harg⟩

/-! ### Whole lines -/

theorem Command.Has.arg {i : ℕ} (h : cmd.Has ts) (hi : i < ts.length) (hlen : ts[i].length < maxArgLen) :
    cmd.arg i = ts[i] := by
  unfold Command.arg
  rw [h.entry i hi]
  exact (h.spells i hi).takeWhile_first hlen

theorem tokens_arg (h : cmd.Has ts) (hts : tokens line = ts) {i : ℕ} (hi : i < ts.length) :
    cmd.arg i = ts[i] ∧ Piece ' ' (maxArgLen - 1) ts[i] ∧ nul ∉ ts[i] := by
  subst hts
  have hpiece := (tokens_spec line).piece _ (List.getElem_mem hi)
  have hle := hpiece.le
  exact ⟨h.arg hi (by unfold maxArgLen at *; omega), hpiece, (h.spells i hi).free⟩

/-- Executing the arguments of a line stays inside of the arrays when they ask for a description. -/
theorem chekCommand_asksInfo (h : cmd.Has (tokens line)) (index : ℤ) :
    (∀ a ∈ chekCommand cmd index, a.Inside) ↔ AsksInfo line := by
  rw [chekCommand_inside, h.count]
  constructor
  · rintro ⟨hcount, hnum, hinfo⟩
    obtain ⟨name, info, rest, hts⟩ : ∃ name info rest, tokens line = name :: info :: rest := by
      match tokens line, hcount with
      | name :: info :: rest, _ => exact ⟨name, info, rest, rfl⟩
    rw [hts] at h
    obtain ⟨h0, hpiece, hnul⟩ := tokens_arg h hts (i := 0) (by simp)
    obtain ⟨h1, -, -⟩ := tokens_arg h hts (i := 1) (by simp)
    rw [h0, processCommand_pos hpiece hnul] at hnum
    obtain rfl : info = "-info".toList := h1.symm.trans hinfo
    exact ⟨name, rest, hts, hnum⟩
  · rintro ⟨name, rest, hts, hname⟩
    rw [hts] at h ⊢
    obtain ⟨h0, hpiece, hnul⟩ := tokens_arg h hts (i := 0) (by simp)
    obtain ⟨h1, -, -⟩ := tokens_arg h hts (i := 1) (by simp)
    rw [h0, processCommand_pos hpiece hnul]
    exact ⟨by simp, hname, h1⟩

/-- For every line: executing it stays inside of the arrays exactly when the heap has the blocks
for its arguments and it asks for the description of a command. -/
theorem dispatch_stays_inside (heap : UsrHeap) (index : ℤ) (hnul : nul ∉ line) :
    StaysInside heap index line ↔ (∀ k < (tokens line).length, heap.serves k = true) ∧ AsksInfo line := by
  constructor
  · rintro ⟨cmd, hrun, hin⟩
    obtain ⟨hhas, hserves⟩ := parseCommand_has hnul hrun
    exact ⟨hserves, (chekCommand_asksInfo hhas index).mp hin⟩
  · rintro ⟨hserves, hasks⟩
    obtain ⟨cmd, hrun⟩ := parseCommand_isSome hnul hserves
    exact ⟨cmd, hrun, (chekCommand_asksInfo (parseCommand_has hnul hrun).1 index).mpr hasks⟩

theorem dispatch_stays_inside_info : StaysInside (plainHeap true) 9 "cat -info".toList := by
  have hasks : AsksInfo "cat -info".toList := ⟨"cat".toList, [], by decide, by decide⟩
  exact (dispatch_stays_inside (plainHeap true) 9 (by decide)).mpr ⟨fun _ _ => rfl, hasks⟩

/-- `ps` alone reads `args[1]`, and `newComand` stores `argv[1]` into its empty array. -/
theorem dispatch_stays_inside_ps : ¬∀ heap index line, nul ∉ line → StaysInside heap index line := by
  intro hall
  obtain ⟨cmd, hrun, hin⟩ := hall (plainHeap true) 3 "ps".toList (by decide)
  obtain ⟨name, rest, hts, -⟩ := (chekCommand_asksInfo (parseCommand_has (by decide) hrun).1 3).mp hin
  have hlen := congrArg List.length hts
  rw [show (tokens "ps".toList).length = 1 by decide] at hlen
  simp at hlen

end BareKernel.Userland

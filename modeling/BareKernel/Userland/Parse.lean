import BareKernel.Links.Words
import BareKernel.Userland.Strings

/-! How `shell.c` cuts a line into arguments. The table of the arguments and each argument lie in
blocks of the heap, and `parseCommand` stores into them without looking whether it got them. It
returns `none` where it stores through `NULL`: nothing is said about what happens after that. -/

namespace BareKernel.Userland

open Function (update)
open Links

/-- The size of the shell's line. -/
def wordBufferSize : ℕ := 1024

def maxArgLen : ℕ := 64

def maxArgs : ℕ := 20

/-- What `usr_malloc` answers to a parse: which of its calls get a block, the first one of them
for the table, and what the blocks hold at first. -/
structure UsrHeap where
  grants : ℕ → Bool
  stray : ℕ → List Char
  block : ℕ → ℕ → Char

/-- What an entry of the table leads to: some string, or the block of an argument. -/
inductive Entry where
  | stray (s : List Char)
  | block (k : ℕ)

structure Command where
  args : Cells ℕ Entry
  blocks : ℕ → Cells ℕ Char
  argCount : ℕ

/-- The string at `args[i]`. -/
def Command.arg (cmd : Command) (i : ℕ) : List Char :=
  match cmd.args.cell i with
  | .stray s => s
  | .block k => ((cmd.blocks k).first maxArgLen).takeWhile (· ≠ nul)

/-- The loops over spaces. -/
def skipSpaces (input : List Char) (len index : ℕ) : ℕ :=
  if index < len ∧ input.getD index nul = ' ' then skipSpaces input len (index + 1) else index
termination_by len - index

/-- The loop that copies an argument: `index`, `i` and the block at its end. -/
def copyArg (input : List Char) (len index i : ℕ) (arg : Cells ℕ Char) : ℕ × ℕ × Cells ℕ Char :=
  if index < len ∧ input.getD index nul ≠ ' ' ∧ i < maxArgLen - 1 then
    copyArg input len (index + 1) (i + 1) (arg.store i (input.getD index nul))
  else (index, i, arg)
termination_by len - index

/-- The blocks that the argument `k` needs. -/
def UsrHeap.serves (heap : UsrHeap) (k : ℕ) : Bool := heap.grants 0 && heap.grants (k + 1)

/-- The loop over the arguments. -/
def parseArgs (heap : UsrHeap) (input : List Char) (len index : ℕ) (cmd : Command) : Option Command :=
  if index < len ∧ cmd.argCount < maxArgs then
    let index := skipSpaces input len index
    if len ≤ index then some cmd
    else if heap.serves cmd.argCount then
      let (index, i, arg) := copyArg input len index 0 (.fresh (heap.block cmd.argCount))
      let args := cmd.args.store cmd.argCount (.block cmd.argCount)
      let blocks := update cmd.blocks cmd.argCount (arg.store i nul)
      parseArgs heap input len index ⟨args, blocks, cmd.argCount + 1⟩
    else none
  else some cmd
termination_by maxArgs - cmd.argCount

/-- The table and the blocks before anything is stored. -/
def UsrHeap.command (heap : UsrHeap) : Command :=
  ⟨.fresh fun i => .stray (heap.stray i), fun k => .fresh (heap.block k), 0⟩

def parseCommand (heap : UsrHeap) (input : List Char) : Option Command :=
  let len := strSize input
  parseArgs heap input len (skipSpaces input len 0) heap.command

/-! ### What a parse gives -/

/-- The arguments: pieces of the words, as many as the table has entries. -/
def tokens (input : List Char) : List (List Char) := (pieces ' ' (maxArgLen - 1) input).take maxArgs

/-- The command has the arguments `ts`, and nothing was stored outside of the table and the blocks. -/
structure Command.Has (cmd : Command) (ts : List (List Char)) : Prop where
  count : cmd.argCount = ts.length
  table : cmd.args.Inside (Set.Iio maxArgs)
  blocks : ∀ k, (cmd.blocks k).Inside (Set.Iio maxArgLen)
  entry : ∀ i < ts.length, cmd.args.cell i = .block i
  spells : ∀ i (h : i < ts.length), Spells nul (cmd.blocks i).cell ts[i]

/-- What the arguments of a line are. -/
structure Tokens (input : List Char) (ts : List (List Char)) : Prop where
  count : ts.length ≤ maxArgs
  piece : ∀ w ∈ ts, Piece ' ' (maxArgLen - 1) w
  isPrefix : ts.flatten <+: input.filter (· ≠ ' ')
  all : ts.length < maxArgs → ts.flatten = input.filter (· ≠ ' ')
  words : (∀ w ∈ words ' ' input, w.length < maxArgLen) → (words ' ' input).length ≤ maxArgs → ts = words ' ' input

def Tokenises (heap : UsrHeap) (input : List Char) : Prop :=
  ∃ cmd ts, parseCommand heap input = some cmd ∧ cmd.Has ts ∧ Tokens input ts

variable {heap : UsrHeap} {input : List Char} {len index i : ℕ} {arg : Cells ℕ Char} {cmd : Command}
  {ts : List (List Char)}

/-! ### The loops -/

theorem drop_eq_getD (h : index < input.length) :
    input.drop index = input.getD index nul :: input.drop (index + 1) := by
  rw [List.getD_eq_getElem _ _ h]
  exact List.drop_eq_getElem_cons h

/-- Skipping spaces loses no piece, and it stops before a word or at the end. -/
theorem skipSpaces_spec (input : List Char) (h : index ≤ input.length) (n : ℕ) :
    index ≤ skipSpaces input input.length index ∧ skipSpaces input input.length index ≤ input.length ∧
      pieces ' ' n (input.drop (skipSpaces input input.length index)) = pieces ' ' n (input.drop index) ∧
      (skipSpaces input input.length index < input.length →
        input.getD (skipSpaces input input.length index) nul ≠ ' ') := by
  induction hk : input.length - index generalizing index with
  | zero =>
    rw [skipSpaces, if_neg (by omega)]
    exact ⟨le_rfl, h, rfl, fun hlt => absurd hlt (by omega)⟩
  | succ k ih =>
    rw [skipSpaces]
    by_cases hspace : input.getD index nul = ' '
    · rw [if_pos ⟨by omega, hspace⟩]
      obtain ⟨hle, hend, hsame, hstop⟩ := @ih (index + 1) (by omega) (by omega)
      refine ⟨by omega, hend, ?_, hstop⟩
      rw [hsame, drop_eq_getD (by omega : index < input.length), hspace, pieces_sep]
    · rw [if_neg fun hand => hspace hand.2]
      exact ⟨le_rfl, h, rfl, fun _ => hspace⟩

theorem copyArg_eq (h : index ≤ input.length) (hi : i ≤ maxArgLen - 1) :
    copyArg input input.length index i arg =
      (index + (firstPiece ' ' (maxArgLen - 1 - i) (input.drop index)).length,
        i + (firstPiece ' ' (maxArgLen - 1 - i) (input.drop index)).length,
        arg.storeAll i (firstPiece ' ' (maxArgLen - 1 - i) (input.drop index))) := by
  induction hk : input.length - index generalizing index i arg with
  | zero =>
    rw [copyArg, if_neg (by omega), List.drop_eq_nil_of_le (by omega), firstPiece_nil]
    rfl
  | succ k ih =>
    rw [copyArg, drop_eq_getD (by omega : index < input.length)]
    by_cases hspace : input.getD index nul = ' '
    · rw [if_neg fun hand => hand.2.1 hspace, hspace, firstPiece_sep]
      rfl
    by_cases hfull : i < maxArgLen - 1
    · obtain ⟨r, hr⟩ : ∃ r, maxArgLen - 1 - i = r + 1 := ⟨maxArgLen - 1 - i - 1, by omega⟩
      rw [if_pos ⟨by omega, hspace, hfull⟩, ih (by omega) (by omega) (by omega), hr, firstPiece_cons hspace]
      rw [show maxArgLen - 1 - (i + 1) = r by omega, List.length_cons, Cells.storeAll]
      simp only [Nat.add_assoc, Nat.add_comm 1]
    · rw [if_neg fun hand => hfull hand.2.2, show maxArgLen - 1 - i = 0 by omega, firstPiece_zero]
      rfl

theorem Command.Has.push {w : List Char} (h : cmd.Has ts) (hts : ts.length < maxArgs) (hlen : w.length < maxArgLen)
    (hnul : nul ∉ w) (cell : ℕ → Char) :
    Command.Has ⟨cmd.args.store cmd.argCount (.block cmd.argCount),
      update cmd.blocks cmd.argCount (((Cells.fresh cell).storeAll 0 w).store w.length nul),
      cmd.argCount + 1⟩ (ts ++ [w]) := by
  have hcount := h.count
  constructor
  · simp [hcount]
  · exact h.table.store (by rw [hcount]; exact hts)
  · intro k
    dsimp only
    by_cases hk : k = cmd.argCount
    · rw [hk, Function.update_self]
      exact (Cells.inside_storeAll_store cell w).mpr hlen
    · rw [Function.update_of_ne hk]
      exact h.blocks k
  · intro i hi
    rw [List.length_append, List.length_singleton] at hi
    by_cases hk : i = cmd.argCount
    · subst hk
      exact Function.update_self ..
    · exact (Function.update_of_ne hk ..).trans (h.entry i (by omega))
  · intro i hi
    rw [List.length_append, List.length_singleton] at hi
    dsimp only
    by_cases hk : i = ts.length
    · subst hk
      rw [hcount, Function.update_self, List.getElem_concat_length]
      · exact Spells.storeAll _ hnul
      · rfl
    · rw [Function.update_of_ne (by rw [hcount]; exact hk), List.getElem_append_left (by omega)]
      exact h.spells i (by omega)

/-! ### The whole parse -/

/-- The parse goes on to `more` arguments if it gets the blocks for all of them. -/
def Completes (heap : UsrHeap) (ts more : List (List Char)) (result : Option Command) : Prop :=
  (result = none ∧ ∃ k < more.length, heap.serves (ts.length + k) = false) ∨
    ∃ cmd, result = some cmd ∧ cmd.Has (ts ++ more) ∧ ∀ k < more.length, heap.serves (ts.length + k) = true

theorem Completes.stop (h : cmd.Has ts) : Completes heap ts [] (some cmd) :=
  Or.inr ⟨cmd, rfl, by rwa [List.append_nil], fun k hk => absurd hk (Nat.not_lt_zero k)⟩

theorem Completes.next {w : List Char} {more : List (List Char)} {result : Option Command}
    (hserves : heap.serves ts.length = true) (h : Completes heap (ts ++ [w]) more result) :
    Completes heap ts (w :: more) result := by
  have hlen : ∀ k, (ts ++ [w]).length + k = ts.length + (k + 1) := by
    intro k
    rw [List.length_append, List.length_singleton]
    omega
  rcases h with ⟨hnone, k, hk, hfail⟩ | ⟨cmd, hsome, hhas, hall⟩
  · exact Or.inl ⟨hnone, k + 1, Nat.succ_lt_succ hk, hlen k ▸ hfail⟩
  · refine Or.inr ⟨cmd, hsome, by rwa [List.append_assoc] at hhas, fun k hk => ?_⟩
    cases k with
    | zero => exact hserves
    | succ k => exact hlen k ▸ hall k (Nat.lt_of_succ_lt_succ hk)

theorem parseArgs_completes (hnul : nul ∉ input) (h : cmd.Has ts) (hts : ts.length ≤ maxArgs)
    (hindex : index ≤ input.length) :
    Completes heap ts ((pieces ' ' (maxArgLen - 1) (input.drop index)).take (maxArgs - ts.length))
      (parseArgs heap input input.length index cmd) := by
  induction hm : maxArgs - ts.length generalizing index cmd ts with
  | zero =>
    rw [parseArgs, if_neg (by rw [h.count]; omega), List.take_zero]
    exact .stop h
  | succ m ih =>
    obtain ⟨hlow, hhigh, hsame, hstop⟩ := skipSpaces_spec input hindex (maxArgLen - 1)
    rw [parseArgs]
    by_cases hlt : index < input.length
    swap
    · rw [if_neg fun hand => hlt hand.1, List.drop_eq_nil_of_le (by omega), pieces_nil, List.take_nil]
      exact .stop h
    rw [if_pos ⟨hlt, by rw [h.count]; omega⟩, ← hsame]
    dsimp only
    generalize skipSpaces input input.length index = r at *
    by_cases hend : input.length ≤ r
    · rw [if_pos hend, List.drop_eq_nil_of_le hend, pieces_nil, List.take_nil]
      exact .stop h
    have hr : r < input.length := by omega
    have hcons := drop_eq_getD hr
    have hpieces := pieces_cons (show 0 < maxArgLen - 1 by decide) (hstop hr) (input.drop (r + 1))
    rw [← hcons] at hpieces
    rw [if_neg hend, hpieces, List.take_succ_cons]
    by_cases hserves : heap.serves ts.length = true
    · rw [h.count, if_pos hserves, copyArg_eq hhigh (Nat.zero_le _), Nat.sub_zero, Nat.zero_add]
      have hbegins := firstPiece_isPrefix ' ' (maxArgLen - 1) (input.drop r)
      have hshort := firstPiece_length_le ' ' (maxArgLen - 1) (input.drop r)
      generalize firstPiece ' ' (maxArgLen - 1) (input.drop r) = w at *
      have hw : nul ∉ w := fun hmem => hnul (List.mem_of_mem_drop (hbegins.subset hmem))
      have hfits := hbegins.length_le
      rw [List.length_drop] at hfits
      have hpush := h.push (by omega) (by unfold maxArgLen at hshort ⊢; omega) hw (heap.block ts.length)
      have hrest := ih hpush (by simp; omega) (show r + w.length ≤ input.length by omega) (by simp; omega)
      rw [h.count] at hrest
      rw [List.drop_drop]
      exact hrest.next hserves
    · rw [h.count, if_neg hserves]
      exact Or.inl ⟨rfl, 0, Nat.succ_pos _, by simpa using hserves⟩

theorem UsrHeap.command_has (heap : UsrHeap) : heap.command.Has [] :=
  ⟨rfl, Cells.inside_fresh _, fun _ => Cells.inside_fresh _, fun i hi => absurd hi (Nat.not_lt_zero i),
    fun i hi => absurd hi (Nat.not_lt_zero i)⟩

theorem parseCommand_completes (heap : UsrHeap) (hnul : nul ∉ input) :
    Completes heap [] (tokens input) (parseCommand heap input) := by
  obtain ⟨-, hhigh, hsame, -⟩ := skipSpaces_spec input (Nat.zero_le _) (maxArgLen - 1)
  have hall : Completes heap [] _ _ := parseArgs_completes hnul heap.command_has (Nat.zero_le _) hhigh
  rw [hsame] at hall
  unfold parseCommand
  rw [strSize_eq]
  exact hall

theorem parseCommand_has (hnul : nul ∉ input) (hrun : parseCommand heap input = some cmd) :
    cmd.Has (tokens input) ∧ ∀ k < (tokens input).length, heap.serves k = true := by
  have hcompletes := parseCommand_completes heap hnul
  rw [hrun] at hcompletes
  rcases hcompletes with ⟨hnone, -⟩ | ⟨cmd', hsome, hhas, hserves⟩
  · cases hnone
  · cases hsome
    simp only [List.length_nil, Nat.zero_add] at hserves
    exact ⟨hhas, hserves⟩

theorem parseCommand_isSome (hnul : nul ∉ input) (hserves : ∀ k < (tokens input).length, heap.serves k = true) :
    ∃ cmd, parseCommand heap input = some cmd := by
  rcases parseCommand_completes heap hnul with ⟨-, k, hk, hfail⟩ | ⟨cmd, hsome, -⟩
  · rw [List.length_nil, Nat.zero_add, hserves k hk] at hfail
    cases hfail
  · exact ⟨cmd, hsome⟩

/-- What is cut into arguments is the line, without its spaces. -/
theorem tokens_spec (input : List Char) : Tokens input (tokens input) := by
  have hflat := pieces_flatten ' ' (maxArgLen - 1) input
  refine ⟨List.length_take_le .., fun w hw => ?_, ?_, fun hlt => ?_, fun hshort hcount => ?_⟩
  · exact pieces_piece (by decide) (List.mem_of_mem_take hw)
  · rw [← hflat, tokens]
    conv_rhs => rw [← List.take_append_drop maxArgs (pieces ' ' (maxArgLen - 1) input), List.flatten_append]
    exact List.prefix_append ..
  · rw [← hflat, tokens, List.take_of_length_le]
    unfold tokens at hlt
    rw [List.length_take] at hlt
    omega
  · have hwords : pieces ' ' (maxArgLen - 1) input = words ' ' input :=
      pieces_words fun u hu => Nat.le_sub_one_of_lt (hshort u hu)
    rw [tokens, hwords, List.take_of_length_le hcount]

/-- The line is cut up exactly when the heap has the blocks for it: one for the table, and one
for each argument. -/
theorem parse_command_tokenises (heap : UsrHeap) (hnul : nul ∉ input) :
    Tokenises heap input ↔ ∀ k < (tokens input).length, heap.serves k = true := by
  constructor
  · rintro ⟨cmd, ts, hrun, -⟩
    exact (parseCommand_has hnul hrun).2
  · intro hserves
    obtain ⟨cmd, hrun⟩ := parseCommand_isSome hnul hserves
    exact ⟨cmd, tokens input, hrun, (parseCommand_has hnul hrun).1, tokens_spec input⟩

/-- A heap that answers every call, with zeros, or none. -/
def plainHeap (grants : Bool) : UsrHeap := ⟨fun _ => grants, fun _ => [], fun _ _ => nul⟩

theorem parse_command_tokenises_pipe : Tokenises (plainHeap true) "cat | wc &".toList :=
  (parse_command_tokenises (plainHeap true) (by decide)).mpr fun _ _ => rfl

/-- Without a block for the table, the first argument is stored through `NULL`. -/
theorem parse_command_tokenises_noHeap : ¬∀ heap input, nul ∉ input → Tokenises heap input := by
  intro hall
  obtain ⟨cmd, ts, hrun, -⟩ := hall (plainHeap false) "ps".toList (by decide)
  have hserves := (parseCommand_has (by decide) hrun).2 0 (by decide)
  exact absurd hserves (by decide)

end BareKernel.Userland

import BareKernel.Links.Streams
import BareKernel.Userland.Filter
import BareKernel.Userland.StringsLaw
import BareKernel.Userland.Typing

/-! The programs of `libs-c/command-lib.c` that stand in pipelines, and what they make of what they
read. A line that `cat` passes on ends the text for the program behind it, as `cat` puts the
mark of the end behind the line. -/

namespace BareKernel.Userland

open Links

def bytes (word : List Char) : List ℤ := word.map fun c => (c.toNat : ℤ)

/-- `print` of a character that has been read; the mark of the end is the empty string. -/
def printChar (c : ℤ) : List ℤ := if charOf c = nul then [] else [c]

inductive Cat where
  | reading | prints (c : ℤ) | ends | done

def catCommand : Program ℤ Cat
  | .reading => .read fun
    | some c => .prints c
    | none => .done
  | .prints c => .write (printChar c) (if charOf c = newline ∨ charOf c = eof then .ends else .reading)
  | .ends => .write [0] .done
  | .done => .stop

/-- The size of `num` in `wcCommand`. -/
def numSize : ℕ := 10

inductive Wc where
  | reading (lineCount : ℤ) | prints (lineCount c : ℤ) | sums (words : List (List ℤ))

/-- What `wcCommand` prints at the end. The last line is counted though nothing ends it. -/
def wcSum (temp num : ℕ → Char) (lineCount : ℤ) : List (List ℤ) :=
  let num := (intToString (toInt (lineCount + 1)) temp (.fresh num) numSize).2
  [bytes ['\n'], bytes ((num.first numSize).takeWhile (· ≠ nul)), bytes " lines".toList, bytes ['\n']]

/-- `temp` and `num` are in the arrays at first. -/
def wcCommand (temp num : ℕ → Char) : Program ℤ Wc
  | .reading lineCount => .read fun
    | some c => if charOf c = eof then .sums (wcSum temp num lineCount) else .prints lineCount c
    | none => .sums (wcSum temp num lineCount)
  | .prints lineCount c =>
    .write (printChar c) (.reading (if charOf c = newline then toInt (lineCount + 1) else lineCount))
  | .sums [] => .stop
  | .sums (word :: words) => .write word (.sums words)

inductive Filtering where
  | reading (s : Filter) | prints (s : Filter) (c : ℤ) | ends (s : Filter) | last | done

/-- `filterCommand` call by call; no read of it fails. -/
def filtering : Program ℤ Filtering
  | .reading s => .read fun
    | some c => .prints s c
    | none => .reading s
  | .prints s c =>
    let s := s.take (charOf c)
    .write (printChar c) (if s.c = eof then .ends s else .reading s)
  | .ends s => .write (bytes (((s.buffer.store s.pos nul).first (s.pos + 1)).takeWhile (· ≠ nul))) .last
  | .last => .write [0] .done
  | .done => .stop

/-- The words that `echo_command` prints one after the other, with those of `printShell`. -/
def echoWords (argv : List (List ℤ)) : List (List ℤ) :=
  argv.flatMap (fun arg => [arg, bytes [' ']]) ++ [bytes ['\n'], bytes ['\n'], bytes "shell: >".toList]

def echoCommand : Program ℤ (List (List ℤ))
  | [] => .stop
  | word :: words => .write word words

variable {text rest : List ℤ} {e n : ℤ} {temp num cell : ℕ → Char} {s : Filter} {vs : List Char}

theorem printChar_of_ne {c : ℤ} (h : charOf c ≠ eof) : printChar c = [c] := if_neg h

/-! ### What they make -/

/-- What `cat` shows: the first line, and the mark behind it. -/
def catShows : List ℤ → List ℤ
  | [] => []
  | c :: cs => if charOf c = newline ∨ charOf c = eof then printChar c ++ [0] else c :: catShows cs

theorem catCommand_makes (xs : List ℤ) : catCommand.Makes .reading xs (catShows xs) := by
  induction xs with
  | nil => exact .of_read_nil rfl
  | cons c cs ih =>
    have hafter : catCommand.Makes (if charOf c = newline ∨ charOf c = eof then .ends else .reading) cs
        (if charOf c = newline ∨ charOf c = eof then [0] else catShows cs) := by
      split
      · have hmark : catCommand.Makes .ends cs ([0] ++ []) := .of_write rfl (.of_stop rfl cs)
        exact hmark
      · exact ih
    have hshown : catShows (c :: cs) =
        printChar c ++ if charOf c = newline ∨ charOf c = eof then [0] else catShows cs := by
      rw [catShows]
      split
      · rfl
      · rename_i hgo
        rw [printChar_of_ne fun he => hgo (Or.inr he)]
        rfl
    rw [hshown]
    exact .of_read rfl (.of_write rfl hafter)

/-- `echo` writes all of its words and reads nothing. -/
theorem echoCommand_makes (words : List (List ℤ)) (xs : List ℤ) : echoCommand.Makes words xs words.flatten := by
  induction words with
  | nil => exact .of_stop rfl xs
  | cons word words ih =>
    rw [List.flatten_cons]
    exact .of_write rfl ih

theorem echoWords_flatten (argv : List (List ℤ)) :
    (echoWords argv).flatten = argv.flatMap (· ++ [32]) ++ 10 :: bytes "\nshell: >".toList := by
  have hargs : (argv.flatMap fun arg => [arg, bytes [' ']]).flatten = argv.flatMap (· ++ [32]) := by
    induction argv with
    | nil => rfl
    | cons arg argv ih =>
      rw [List.flatMap_cons, List.flatten_append, ih, List.flatMap_cons]
      rfl
  rw [echoWords, List.flatten_append, hargs]
  rfl

/-- The lines of a text as they are counted. -/
def lines (text : List ℤ) : ℕ := (text.map charOf).count newline + 1

/-- What `wc` shows of a text that the mark ends. -/
def wcShows (text : List ℤ) : List ℤ := text ++ bytes ('\n' :: decimalNat (lines text) ++ " lines\n".toList)

/-- What `filter` shows of a text that the mark ends. -/
def filterShows (text : List ℤ) : List ℤ := text ++ bytes (vowels (text.map charOf)) ++ [0]

theorem sums_makes (words : List (List ℤ)) (xs : List ℤ) :
    (wcCommand temp num).Makes (.sums words) xs words.flatten := by
  induction words with
  | nil => exact .of_stop rfl xs
  | cons word words ih =>
    rw [List.flatten_cons]
    exact .of_write rfl ih

/-- A character of the text is shown. -/
theorem wcCommand_char {c : ℤ} {xs ys : List ℤ} (hc : charOf c ≠ eof) (h : (wcCommand temp num).Makes
    (.reading (if charOf c = newline then toInt (n + 1) else n)) xs ys) :
    (wcCommand temp num).Makes (.reading n) (c :: xs) (c :: ys) := by
  have hprint : (wcCommand temp num).Makes (.prints n c) xs (printChar c ++ ys) := .of_write rfl h
  rw [printChar_of_ne hc] at hprint
  refine .of_read rfl ?_
  dsimp only
  rw [if_neg hc]
  exact hprint

theorem reading_makes {lineCount : ℕ} (htext : ∀ c ∈ text, charOf c ≠ eof) (he : charOf e = eof)
    (hroom : lineCount + lines text < 2 ^ 31) : (wcCommand temp num).Makes (.reading lineCount) (text ++ e :: rest)
      (text ++ (wcSum temp num (lineCount + (text.map charOf).count newline : ℕ)).flatten) := by
  unfold lines at hroom
  induction text generalizing lineCount with
  | nil =>
    rw [List.map_nil, List.count_nil, Nat.add_zero, List.nil_append, List.nil_append]
    refine .of_read rfl ?_
    dsimp only
    rw [if_pos he]
    exact sums_makes _ rest
  | cons c text ih =>
    obtain ⟨hc, htext⟩ := List.forall_mem_cons.mp htext
    refine wcCommand_char hc ?_
    rw [List.map_cons, List.count_cons] at hroom ⊢
    by_cases hline : charOf c = newline
    · have hone : (if (charOf c == newline) = true then 1 else 0) = 1 := if_pos (beq_iff_eq.mpr hline)
      rw [hone] at hroom ⊢
      have hcast : toInt ((lineCount : ℤ) + 1) = (lineCount + 1 : ℕ) := by
        push_cast
        exact toInt_eq (by omega) (by omega)
      have hsum : lineCount + ((text.map charOf).count newline + 1) =
          lineCount + 1 + (text.map charOf).count newline := by omega
      rw [if_pos hline, hcast, hsum]
      exact ih htext (by omega)
    · have hzero : (if (charOf c == newline) = true then 1 else 0) = 0 := if_neg fun he => hline (beq_iff_eq.mp he)
      rw [hzero, Nat.add_zero] at hroom ⊢
      rw [if_neg hline]
      exact ih htext hroom

theorem wcSum_eq {lineCount : ℕ} (hroom : lineCount + 1 < 10 ^ 9) : (wcSum temp num lineCount).flatten =
    bytes ('\n' :: decimalNat (lineCount + 1) ++ " lines\n".toList) := by
  have hcount : toInt ((lineCount : ℤ) + 1) = (lineCount + 1 : ℕ) := by
    push_cast
    exact toInt_eq (by omega) (by omega)
  have hdecimal : decimal (lineCount + 1 : ℕ) = decimalNat (lineCount + 1) := by
    rw [decimal, if_neg (by omega), Int.natAbs_natCast]
  have hlen : (decimalNat (lineCount + 1)).length < numSize :=
    Nat.lt_succ_of_le ((decimalNat_length_le (by decide)).mpr hroom)
  have htext := (@printsInt_fits (lineCount + 1 : ℕ) numSize (by omega) (by omega) (by decide) temp num).text
  rw [hdecimal, if_pos hlen] at htext
  unfold wcSum
  dsimp only
  rw [hcount, htext.takeWhile_first hlen]
  simp [bytes]

theorem wcCommand_makes (htext : ∀ c ∈ text, charOf c ≠ eof) (he : charOf e = eof) (hroom : lines text < 10 ^ 9) :
    (wcCommand temp num).Makes (.reading 0) (text ++ e :: rest) (wcShows text) := by
  have hmakes := @reading_makes text rest e temp num 0 htext he (by omega)
  rw [Nat.zero_add, wcSum_eq hroom] at hmakes
  exact hmakes

theorem filtering_char {c : ℤ} {xs ys : List ℤ} (hc : charOf c ≠ eof)
    (h : filtering.Makes (.reading (s.take (charOf c))) xs ys) : filtering.Makes (.reading s) (c :: xs) (c :: ys) := by
  have hgo : ¬(s.take (charOf c)).c = eof := by
    rw [Filter.take_char, lower_eq_eof]
    exact hc
  have hprint : filtering.Makes (.prints s c) xs (printChar c ++ ys) := .of_write rfl (by rwa [if_neg hgo])
  rw [printChar_of_ne hc] at hprint
  exact .of_read rfl hprint

theorem filtering_makes_ends (hs : s.Keeps cell vs) (hvs : eof ∉ vs) (xs : List ℤ) :
    filtering.Makes (.ends s) xs (bytes vs ++ [0]) := by
  have hheld : ((s.buffer.store s.pos nul).first (s.pos + 1)).takeWhile (· ≠ nul) = vs := by
    rw [hs.pos, hs.buffer]
    exact (Spells.storeAll _ hvs).takeWhile_first (Nat.lt_succ_self _)
  have hlast : filtering.Makes .last xs ([0] ++ []) := .of_write rfl (.of_stop rfl xs)
  have hword : filtering (.ends s) = .write (bytes vs) .last := by
    rw [← hheld]
    rfl
  exact .of_write hword hlast

theorem filtering_makes (hs : s.Keeps cell vs) (hvs : eof ∉ vs) (htext : ∀ c ∈ text, charOf c ≠ eof)
    (he : charOf e = eof) : filtering.Makes (.reading s) (text ++ e :: rest)
      (text ++ (bytes (vs ++ vowels (text.map charOf)) ++ [0])) := by
  induction text generalizing s vs with
  | nil =>
    have hnext := hs.take (charOf e)
    have hnone : vowels [charOf e] = [] := by
      rw [he]
      decide
    have hmark : (s.take (charOf e)).c = eof := by
      rw [Filter.take_char, lower_eq_eof]
      exact he
    rw [hnone] at hnext
    have hprint : filtering.Makes (.prints s e) rest (printChar e ++ (bytes (vs ++ []) ++ [0])) :=
      .of_write rfl (by rw [if_pos hmark]; exact filtering_makes_ends hnext (by simpa using hvs) rest)
    rw [printChar, if_pos (show charOf e = nul from he)] at hprint
    exact .of_read rfl hprint
  | cons c text ih =>
    obtain ⟨hc, htext⟩ := List.forall_mem_cons.mp htext
    have hfree : eof ∉ vs ++ vowels [charOf c] := by
      rw [List.mem_append, not_or]
      exact ⟨hvs, eof_notMem_vowels _⟩
    have hnext := ih (hs.take (charOf c)) hfree htext
    rw [List.append_assoc, ← vowels_append] at hnext
    exact filtering_char hc hnext

/-- `filterCommand` from its beginning on. -/
theorem filterCommand_makes (cell : ℕ → Char) (c : Char) (htext : ∀ c ∈ text, charOf c ≠ eof) (he : charOf e = eof) :
    filtering.Makes (.reading ⟨.fresh cell, 0, c, []⟩) (text ++ e :: rest) (filterShows text) := by
  have hstart : Filter.Keeps ⟨.fresh cell, 0, c, []⟩ cell [] := ⟨rfl, rfl⟩
  rw [filterShows, List.append_assoc]
  exact filtering_makes hstart List.not_mem_nil htext he

/-! ### The buffer of the filter -/

/-- All stores of the filter are inside of its buffer. -/
def Filtering.Inside : Filtering → Prop
  | .reading s | .prints s _ => s.buffer.Inside (Set.Iio filterSize)
  | .ends s => (s.buffer.store s.pos nul).Inside (Set.Iio filterSize)
  | .last | .done => True

/-- The vowels of the text that has been read are in the buffer. -/
def Filtering.Keeps (cell : ℕ → Char) (text : List ℤ) : Filtering → Prop
  | .reading s | .ends s => s.Keeps cell (vowels (text.map charOf))
  | .prints s c => ∃ before, text = before ++ [c] ∧ s.Keeps cell (vowels (before.map charOf))
  | .last | .done => True

theorem filtering_keeps {r : Filtering} {xs ys : List ℤ} (c : Char)
    (h : filtering.Runs (.reading ⟨.fresh cell, 0, c, []⟩) xs ys r) : r.Keeps cell xs := by
  have hstart : Filtering.Keeps cell [] (.reading ⟨.fresh cell, 0, c, []⟩) := ⟨rfl, rfl⟩
  refine h.invariant (I := Filtering.Keeps cell) (fun text r next e hr hask => ?_) (fun text r word next hr hask => ?_)
    hstart
  · cases r with
    | reading s =>
      obtain rfl := Ask.read.inj hask
      exact ⟨text, rfl, hr⟩
    | _ => cases hask
  · cases r with
    | reading s => cases hask
    | prints s e =>
      obtain ⟨-, rfl⟩ := Ask.write.inj hask
      obtain ⟨before, rfl, hs⟩ := hr
      have hnext := hs.take (charOf e)
      rw [← vowels_append, ← List.map_singleton, ← List.map_append] at hnext
      split
      · exact hnext
      · exact hnext
    | ends s =>
      obtain ⟨-, rfl⟩ := Ask.write.inj hask
      trivial
    | last =>
      obtain ⟨-, rfl⟩ := Ask.write.inj hask
      trivial
    | done => cases hask

theorem keeps_inside {r : Filtering} (h : r.Keeps cell text) (hroom : (vowels (text.map charOf)).length < filterSize) :
    r.Inside := by
  have hbuffer {vs : List Char} (hvs : vs.length < filterSize) :
      ((Cells.fresh cell).storeAll 0 vs).Inside (Set.Iio filterSize) :=
    Cells.inside_storeAll (Cells.inside_fresh cell) (by omega)
  cases r with
  | reading s =>
    show s.buffer.Inside _
    rw [h.buffer]
    exact hbuffer hroom
  | prints s e =>
    obtain ⟨before, rfl, hs⟩ := h
    show s.buffer.Inside _
    rw [List.map_append, vowels_append, List.length_append] at hroom
    rw [hs.buffer]
    exact hbuffer (by omega)
  | ends s =>
    show (s.buffer.store s.pos nul).Inside _
    rw [h.buffer, h.pos]
    exact (Cells.inside_storeAll_store cell _).mpr hroom
  | last => trivial
  | done => trivial

end BareKernel.Userland

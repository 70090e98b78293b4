import BareKernel.Userland.Strings

/-! The filter of `libs-c/command-lib.c`. It reads a character at a time, shows it, and keeps
the vowels in a buffer of ten characters, which it prints when the input ends. Nothing looks
whether the buffer is full. -/

namespace BareKernel.Userland

open Links

/-- The size of the buffer of `filterCommand`. -/
def filterSize : ℕ := 10

def eof : Char := nul

/-- What a `read` of one character returns. -/
inductive Reading where
  | error | nothing | char (c : Char)

/-- The variables of the loop, and what has been printed. -/
structure Filter where
  buffer : Cells ℕ Char
  pos : ℕ
  c : Char
  echoed : List Char

/-- An upper-case letter is made lower-case. -/
def lower (c : Char) : Char := if 'A' ≤ c ∧ c ≤ 'Z' then Char.ofNat (c.toNat + 32) else c

/-- What the loop does with a character. -/
def Filter.take (s : Filter) (c : Char) : Filter :=
  let s := { s with echoed := s.echoed ++ if c = nul then [] else [c], c := lower c }
  if isVowel s.c then { s with buffer := s.buffer.store s.pos s.c, pos := s.pos + 1 } else s

/-- `none` when the input has not ended. -/
def filterLoop (s : Filter) : List Reading → Option Filter
  | [] => none
  | .error :: _ => some s
  | .nothing :: rs => filterLoop s rs
  | .char c :: rs => if (s.take c).c = eof then some (s.take c) else filterLoop (s.take c) rs

/-- The state at the end; `cell` and `c` are in the buffer and in the variable at first. -/
def filterCommand (cell : ℕ → Char) (c : Char) (rs : List Reading) : Option Filter := do
  let s ← filterLoop ⟨.fresh cell, 0, c, []⟩ rs
  some { s with buffer := s.buffer.store s.pos nul }

/-- The characters that the reads return. -/
def readChars : List Reading → List Char
  | [] => []
  | .char c :: rs => c :: readChars rs
  | _ :: rs => readChars rs

/-- The reads return the input and the mark that ends it; some of them come too early. -/
structure Delivers (rs : List Reading) (input : List Char) : Prop where
  noError : .error ∉ rs
  chars : readChars rs = input ++ [eof]
  finite : eof ∉ input

/-- The vowels of the input, in lower case. -/
def vowels (input : List Char) : List Char := (input.map Char.toLower).filter (· ∈ ['a', 'e', 'i', 'o', 'u'])

/-- The filter stores inside of its buffer and prints the vowels. -/
def Collects (rs : List Reading) (input : List Char) : Prop :=
  ∀ cell c, ∃ s, filterCommand cell c rs = some s ∧ s.buffer.Inside (Set.Iio filterSize) ∧
    Spells nul s.buffer.cell (vowels input)

variable {s : Filter} {rs : List Reading} {input : List Char} {c : Char}

/-! ### One character -/

/-- What holds of the characters up to `Z` can be checked one by one. -/
theorem char_of_lt {P : Char → Prop} (h : ∀ k < 91, P (Char.ofNat k)) (hc : c.toNat < 91) : P c :=
  Char.ofNat_toNat c ▸ h c.toNat hc

theorem upper_lt (h : 'A' ≤ c ∧ c ≤ 'Z') : c.toNat < 91 := Nat.lt_succ_of_le (Char.le_def.mp h.2)

theorem lower_eq (c : Char) : lower c = c.toLower := by
  by_cases h : 'A' ≤ c ∧ c ≤ 'Z'
  · exact char_of_lt (P := fun c => lower c = c.toLower) (by decide) (upper_lt h)
  · have hval : ¬(c.val ≥ 'A'.val ∧ c.val ≤ 'Z'.val) := h
    rw [lower, if_neg h]
    delta Char.toLower
    rw [dif_neg hval]

theorem lower_not_upper (c : Char) : ¬('A' ≤ lower c ∧ lower c ≤ 'Z') := by
  by_cases h : 'A' ≤ c ∧ c ≤ 'Z'
  · exact char_of_lt (P := fun c => 'A' ≤ c ∧ c ≤ 'Z' → ¬('A' ≤ lower c ∧ lower c ≤ 'Z')) (by decide) (upper_lt h) h
  · rwa [lower, if_neg h]

theorem lower_eq_eof : lower c = eof ↔ c = eof := by
  by_cases h : 'A' ≤ c ∧ c ≤ 'Z'
  · have hne := char_of_lt (P := fun c => 'A' ≤ c ∧ c ≤ 'Z' → lower c ≠ eof ∧ c ≠ eof) (by decide) (upper_lt h) h
    exact iff_of_false hne.1 hne.2
  · rw [lower, if_neg h]

theorem isVowel_lower (c : Char) : isVowel (lower c) = decide (c.toLower ∈ ['a', 'e', 'i', 'o', 'u']) := by
  have hupper := lower_not_upper c
  rw [← lower_eq]
  generalize lower c = d at hupper
  have hrange : ∀ x ∈ ['A', 'E', 'I', 'O', 'U'], 'A' ≤ x ∧ x ≤ 'Z' := by
    simp only [List.forall_mem_cons]
    exact ⟨by decide, by decide, by decide, by decide, by decide, List.forall_mem_nil _⟩
  have hno : ∀ x ∈ ['A', 'E', 'I', 'O', 'U'], d ≠ x := fun x hx he => hupper (he ▸ hrange x hx)
  simp only [List.forall_mem_cons] at hno
  simp [isVowel, hno, Bool.or_assoc]

/-! ### The whole input -/

theorem Filter.take_char (s : Filter) (c : Char) : (s.take c).c = lower c := by
  unfold Filter.take
  dsimp only
  split <;> rfl

/-- The vowels so far lie in the buffer, one behind the other. -/
structure Filter.Keeps (s : Filter) (cell : ℕ → Char) (vs : List Char) : Prop where
  pos : s.pos = vs.length
  buffer : s.buffer = (Cells.fresh cell).storeAll 0 vs

theorem Filter.Keeps.take {cell : ℕ → Char} {vs : List Char} (h : s.Keeps cell vs) (c : Char) :
    (s.take c).Keeps cell (vs ++ vowels [c]) := by
  have hvowel := isVowel_lower c
  unfold Filter.take vowels
  dsimp only
  rw [List.map_singleton, hvowel, lower_eq]
  by_cases hc : c.toLower ∈ ['a', 'e', 'i', 'o', 'u']
  · have hcons := (Cells.fresh cell).storeAll_concat 0 vs c.toLower
    rw [Nat.zero_add] at hcons
    simp only [hc, decide_true, if_true, List.filter_cons_of_pos, List.filter_nil]
    exact ⟨by rw [h.pos, List.length_append]; rfl, by rw [h.pos, h.buffer, hcons]⟩
  · simp only [hc, decide_false, Bool.false_eq_true, if_false, not_false_eq_true, List.filter_cons_of_neg,
      List.filter_nil, List.append_nil]
    exact ⟨h.pos, h.buffer⟩

theorem vowels_append (xs ys : List Char) : vowels (xs ++ ys) = vowels xs ++ vowels ys := by
  simp [vowels]

theorem filterLoop_keeps {cell : ℕ → Char} {vs : List Char} (h : s.Keeps cell vs) (hrs : Delivers rs input) :
    ∃ t, filterLoop s rs = some t ∧ t.Keeps cell (vs ++ vowels input) := by
  induction rs generalizing s vs input with
  | nil =>
    have hchars := hrs.chars
    simp [readChars] at hchars
  | cons r rs ih =>
    cases r with
    | error => exact absurd List.mem_cons_self hrs.noError
    | nothing =>
      have hrest : Delivers rs input := ⟨fun he => hrs.noError (List.mem_cons_of_mem _ he), hrs.chars, hrs.finite⟩
      exact ih h hrest
    | char c =>
      have hchars := hrs.chars
      rw [readChars] at hchars
      cases input with
      | nil =>
        obtain ⟨rfl, -⟩ := List.cons.inj hchars
        have hnext := h.take eof
        have hnone : vowels [eof] = [] := by decide
        rw [hnone] at hnext
        rw [filterLoop, if_pos (by rw [Filter.take_char]; decide)]
        exact ⟨_, rfl, hnext⟩
      | cons x input =>
        obtain ⟨rfl, htail⟩ := List.cons.inj hchars
        have hfin := hrs.finite
        rw [List.mem_cons, not_or] at hfin
        have hgo : ¬(s.take c).c = eof := by
          rw [Filter.take_char, lower_eq_eof]
          exact Ne.symm hfin.1
        have hrest : Delivers rs input := ⟨fun he => hrs.noError (List.mem_cons_of_mem _ he), htail, hfin.2⟩
        obtain ⟨t, hrun, hkeeps⟩ := ih (h.take c) hrest
        rw [filterLoop, if_neg hgo]
        refine ⟨t, hrun, ?_⟩
        rwa [List.append_assoc, ← vowels_append] at hkeeps

theorem eof_notMem_vowels (input : List Char) : eof ∉ vowels input := by
  intro heof
  have hmem := (List.mem_filter.mp heof).2
  exact absurd hmem (by decide)

theorem filterCommand_eq (hrs : Delivers rs input) (cell : ℕ → Char) (c : Char) :
    ∃ s, filterCommand cell c rs = some s ∧
      s.buffer = ((Cells.fresh cell).storeAll 0 (vowels input)).store (vowels input).length nul := by
  have hstart : Filter.Keeps ⟨.fresh cell, 0, c, []⟩ cell [] := ⟨rfl, rfl⟩
  obtain ⟨t, hrun, hkeeps⟩ := filterLoop_keeps hstart hrs
  rw [List.nil_append] at hkeeps
  refine ⟨_, by rw [filterCommand, hrun]; rfl, ?_⟩
  dsimp only
  rw [hkeeps.pos, hkeeps.buffer]

/-- The filter is right exactly when the input has less than ten vowels. -/
theorem filter_collects (hrs : Delivers rs input) : Collects rs input ↔ (vowels input).length < filterSize := by
  constructor
  · intro h
    obtain ⟨s, hrun, hin, -⟩ := h (fun _ => nul) nul
    obtain ⟨s', hrun', hbuffer⟩ := filterCommand_eq hrs (fun _ => nul) nul
    obtain rfl := Option.some.inj (hrun.symm.trans hrun')
    rw [hbuffer] at hin
    exact (Cells.inside_storeAll_store _ _).mp hin
  · intro h cell c
    obtain ⟨s, hrun, hbuffer⟩ := filterCommand_eq hrs cell c
    refine ⟨s, hrun, ?_, ?_⟩
    · rw [hbuffer]
      exact (Cells.inside_storeAll_store cell _).mpr h
    · rw [hbuffer]
      exact Spells.storeAll _ (eof_notMem_vowels input)

/-- `Ole` arrives, once with a read that comes too early. -/
theorem filter_collects_three :
    Collects [.char 'O', .nothing, .char 'l', .char 'e', .char eof] ['O', 'l', 'e'] :=
  (filter_collects ⟨by simp, rfl, by decide⟩).mpr (by decide)

/-- Ten vowels: the mark is stored behind the buffer. -/
theorem filter_collects_tenVowels : ¬∀ rs input, Delivers rs input → Collects rs input := by
  intro hall
  set input : List Char := List.replicate 10 'a' with hinput
  have hrs : Delivers ((input ++ [eof]).map .char) input := ⟨by simp, by decide, by decide⟩
  obtain ⟨s, hrun, hin, -⟩ := hall _ input hrs (fun _ => nul) nul
  obtain ⟨s', hrun', hbuffer⟩ := filterCommand_eq hrs (fun _ => nul) nul
  obtain rfl := Option.some.inj (hrun.symm.trans hrun')
  rw [hbuffer] at hin
  exact absurd ((Cells.inside_storeAll_store _ _).mp hin) (by decide)

end BareKernel.Userland

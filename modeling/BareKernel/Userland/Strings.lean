import BareKernel.Links.Cells
import BareKernel.Links.Numeral
import Mathlib.Data.Int.Notation
import Mathlib.Data.List.GetD

/-! The strings of `libs-c/string-lib.c`. A string that is only read is the list of the
characters before its end mark; an array that is stored to is kept as its cells. -/

namespace BareKernel.Userland

open Links

def nul : Char := Char.ofNat 0

/-- The character of a decimal digit. -/
def digit (d : ℕ) : Char := Char.ofNat ('0'.toNat + d)

/-- The value that an `int` has of a result; it wraps. -/
def toInt (x : ℤ) : ℤ := x.bmod (2 ^ 32)

def strSize : List Char → ℕ
  | [] => 0
  | _ :: word => strSize word + 1

/-- The characters are compared as long as `flag` is set. -/
def strCompare (s1 s2 : List Char) : Bool :=
  let flag := decide (strSize s1 = strSize s2)
  (List.range (strSize s1)).foldl (fun flag i => flag && s1.getD i nul == s2.getD i nul) flag

def isVowel (c : Char) : Bool :=
  c = 'a' || c = 'e' || c = 'i' || c = 'o' || c = 'u' ||
    (c = 'A' || c = 'E' || c = 'I' || c = 'O' || c = 'U')

/-! ### Unsigned numbers -/

/-- The size of `temp` in `sizeTToStr`. -/
def sizeTemp : ℕ := 20

/-- The division loop, at place `i`. -/
def divideSize (value i : ℕ) (temp : Cells ℕ Char) : ℕ × Cells ℕ Char :=
  if 0 < value then divideSize (value / 10) (i + 1) (temp.store i (digit (value % 10))) else (i, temp)
termination_by value

/-- The scratch array, with what is in it at first, and the buffer. -/
def sizeTToStr (value : ℕ) (temp : ℕ → Char) (buffer : Cells ℕ Char) : Cells ℕ Char × Cells ℕ Char :=
  if value = 0 then (.fresh temp, (buffer.store 0 '0').store 1 nul)
  else
    let (i, temp) := divideSize value 0 (.fresh temp)
    (temp, (Cells.copyBack temp.cell i i 0 buffer).store i nul)

/-! ### Signed numbers -/

/-- The size of `temp` in `intToString`. -/
def intTemp : ℕ := 12

/-- The division loop, at place `j`. -/
def divideInt (value : ℤ) (j : ℕ) (temp : Cells ℕ Char) : ℕ × Cells ℕ Char :=
  if 0 < value ∧ j < intTemp then
    divideInt (value.tdiv 10) (j + 1) (temp.store j (digit (value.tmod 10).toNat))
  else (j, temp)
termination_by intTemp - j

/-- The digits of a value that is not negative, and the sign behind them. -/
def intDigits (value : ℤ) (isNegative : Bool) (temp : Cells ℕ Char) : ℕ × Cells ℕ Char :=
  let (j, temp) := if value = 0 then (1, temp.store 0 '0') else divideInt value 0 temp
  if isNegative = true ∧ j < intTemp then (j + 1, temp.store j '-') else (j, temp)

/-- The first `j` characters of `temp` go to the buffer in reverse order, if they fit. -/
def fillBuffer (temp : ℕ → Char) (j : ℕ) (buffer : Cells ℕ Char) (bufferSize : ℕ) : Cells ℕ Char :=
  if bufferSize ≤ j then buffer.store 0 nul
  else
    let buffer := Cells.copyBack temp j (bufferSize - 1) 0 buffer
    buffer.store (if j < bufferSize - 1 then j else bufferSize - 1) nul

/-- The scratch array, with what is in it at first, and the buffer. -/
def intToString (value : ℤ) (temp : ℕ → Char) (buffer : Cells ℕ Char) (bufferSize : ℕ) :
    Cells ℕ Char × Cells ℕ Char :=
  if bufferSize < 2 then (.fresh temp, if 0 < bufferSize then buffer.store 0 nul else buffer)
  else
    let isNegative := decide (value < 0)
    let value := if value < 0 then toInt (-value) else value
    let (j, temp) := intDigits value isNegative (.fresh temp)
    (temp, fillBuffer temp.cell j buffer bufferSize)

/-- The loop of `strToInt`. -/
def readInt (res : ℤ) : List Char → ℤ
  | [] => res
  | c :: str =>
    if '0' ≤ c ∧ c ≤ '9' then readInt (toInt (res * 10 + (c.toNat - '0'.toNat : ℤ))) str else res

def strToInt (str : List Char) : ℤ := readInt 0 str

/-! ### Comparing strings -/

variable {s1 s2 : List Char}

@[simp] theorem strSize_eq (word : List Char) : strSize word = word.length := by
  induction word with
  | nil => rfl
  | cons c word ih => rw [strSize, ih, List.length_cons]

theorem foldl_and (p : ℕ → Bool) (flag : Bool) (is : List ℕ) :
    is.foldl (fun flag i => flag && p i) flag = (flag && is.all p) := by
  induction is generalizing flag with
  | nil => simp
  | cons i is ih => rw [List.foldl_cons, ih, List.all_cons, Bool.and_assoc]

theorem strCompare_iff : strCompare s1 s2 = true ↔ s1 = s2 := by
  simp only [strCompare, strSize_eq, foldl_and, Bool.and_eq_true, decide_eq_true_eq, List.all_eq_true,
    List.mem_range, beq_iff_eq]
  constructor
  · rintro ⟨hlen, hall⟩
    apply List.ext_getElem hlen
    intro i hi hi'
    have hget := hall i hi
    rwa [List.getD_eq_getElem _ _ hi, List.getD_eq_getElem _ _ hi'] at hget
  · rintro rfl
    exact ⟨rfl, fun i _ => rfl⟩

end BareKernel.Userland

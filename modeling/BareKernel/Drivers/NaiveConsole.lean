import BareKernel.Drivers.Console
import BareKernel.Links.Bytes

/-! The text console of `naiveConsole.c` in the memory of bytes that it prints to. Its
variables lie in that memory too. As long as the cursor stays on the screen, a print
ends and changes only the screen and these variables. -/

namespace BareKernel.Console

open Function (update)
open Links

/-- Where the variables of the console lie. -/
structure NaiveConsole where
  currentVideo : ℕ
  maxVideo : ℕ
  buffer : ℕ

def video : ℕ := 0xB8000

def width : ℕ := 80

def height : ℕ := 25

/-- The size of `buffer`. -/
def consoleBuffer : ℕ := 64

def byte (c : Char) : UInt8 := UInt8.ofNat c.toNat

/-- The bytes of a string. -/
def text (s : String) : List UInt8 := s.toList.map byte

namespace NaiveConsole

variable (l : NaiveConsole)

def cursor (m : Bytes) : Bytes := update m (m.wordAt l.currentVideo + 1).toNat 0x2f

def cambioCursor (m : Bytes) : Bytes := update m (m.wordAt l.currentVideo + 1).toNat 7

def ncPrintChar (m : Bytes) (character : UInt8) : Bytes :=
  let m := l.cambioCursor m
  let m : Bytes := update m (m.wordAt l.currentVideo).toNat character
  let m := m.setWord l.currentVideo (m.wordAt l.currentVideo + 2)
  let m := l.cursor m
  if m.wordAt l.maxVideo < m.wordAt l.currentVideo then m.setWord l.maxVideo (m.wordAt l.currentVideo) else m

def ncPrint (m : Bytes) (string : List UInt8) : Bytes := string.foldl l.ncPrintChar m

/-- The loop of `ncNewline`. -/
def newlineFrom : ℕ → Bytes → Option Bytes
  | 0, _ => none
  | fuel + 1, m =>
    let m := l.ncPrintChar m (byte ' ')
    if (m.wordAt l.currentVideo - .ofNat video) % .ofNat (width * 2) ≠ 0 then newlineFrom fuel m else some m

/-- A row has `width` characters; from an odd address the loop never meets its end. -/
def ncNewline (m : Bytes) : Option Bytes := l.newlineFrom width m

/-- The digits and the mark behind them are stored in `buffer` and printed from there. -/
def ncPrintBase (m : Bytes) (value base : ℕ) : Option Bytes :=
  (uintToBase value (Cells.fresh fun i => Char.ofNat (m (l.buffer + i)).toNat) base).map fun (digits, buffer) =>
    l.ncPrint (m.place l.buffer ((buffer.first (digits + 1)).map byte)) ((buffer.first digits).map byte)

def ncPrintDec (m : Bytes) (value : ℕ) : Option Bytes := l.ncPrintBase m value 10

def ncPrintHex (m : Bytes) (value : ℕ) : Option Bytes := l.ncPrintBase m value 16

/-- A call of one of the functions that print. -/
inductive PrintCall where
  | print (string : List UInt8)
  | hex (value : ℕ)
  | dec (value : ℕ)
  | newline

def call (m : Bytes) : PrintCall → Option Bytes
  | .print string => some (l.ncPrint m string)
  | .hex value => l.ncPrintHex m value
  | .dec value => l.ncPrintDec m value
  | .newline => l.ncNewline m

/-- One call after the other. -/
def calls (m : Bytes) (cs : List PrintCall) : Option Bytes := cs.foldlM l.call m

/-! ### What a print changes -/

/-- The number of characters of the screen. -/
def screenSize : ℕ := width * height

/-- The address is one of the screen or of a variable. -/
def Owns (i : ℕ) : Prop :=
  (video ≤ i ∧ i < video + 2 * screenSize) ∨ (l.currentVideo ≤ i ∧ i < l.currentVideo + 8) ∨
    (l.maxVideo ≤ i ∧ i < l.maxVideo + 8) ∨ (l.buffer ≤ i ∧ i < l.buffer + consoleBuffer)

instance (i : ℕ) : Decidable (l.Owns i) := inferInstanceAs (Decidable (_ ∨ _ ∨ _ ∨ _))

/-- The screen and the other variables lie beside `currentVideo`. -/
structure Apart : Prop where
  screen : video + 2 * screenSize ≤ l.currentVideo
  maxVideo : l.maxVideo + 8 ≤ l.currentVideo ∨ l.currentVideo + 8 ≤ l.maxVideo
  buffer : l.buffer + consoleBuffer ≤ l.currentVideo ∨ l.currentVideo + 8 ≤ l.buffer

/-- The cursor is at the `n`-th character. -/
def At (m : Bytes) (n : ℕ) : Prop := m.wordAt l.currentVideo = .ofNat (video + 2 * n)

/-- Only the console has changed. -/
def Same (m m' : Bytes) : Prop := ∀ i, ¬l.Owns i → m' i = m i

variable {l} {m m' m₁ : Bytes} {n k j value base : ℕ} {string : List UInt8} {cs : List PrintCall}
  {f g : Bytes → Option Bytes}

theorem Same.refl (m : Bytes) : l.Same m m := fun _ _ => rfl

theorem Same.trans (h : l.Same m m₁) (h' : l.Same m₁ m') : l.Same m m' := fun i hi => (h' i hi).trans (h i hi)

theorem Same.place (h : l.Same m m') (a : ℕ) (xs : List UInt8) : l.Same (m.place a xs) (m'.place a xs) := fun i hi => by
  unfold Bytes.place
  rw [h i hi]

theorem Same.placeAll (h : l.Same m m') (ps : List (ℕ × List UInt8)) : l.Same (m.placeAll ps) (m'.placeAll ps) := by
  induction ps generalizing m m' with
  | nil => exact h
  | cons p ps ih => exact ih (h.place p.1 p.2)

theorem Same.read (h : l.Same m m') {a : ℕ} (ha : ∀ i, l.Owns i → i < a) (k : ℕ) : m'.read a k = m.read a k :=
  Bytes.read_congr fun i _ => h (a + i) fun hi => by have := ha _ hi; omega

theorem At.congr (h : l.At m n) (hsame : ∀ i, l.currentVideo ≤ i → i < l.currentVideo + 8 → m' i = m i) : l.At m' n :=
  (Bytes.wordAt_congr hsame).trans h

/-- A store behind the console leaves the cursor alone. -/
theorem At.place {a : ℕ} (h : l.At m n) (ha : ∀ i, l.Owns i → i < a) (xs : List UInt8) : l.At (m.place a xs) n :=
  h.congr fun i hi hi' => Bytes.place_out (Or.inl (ha i (Or.inr (Or.inl ⟨hi, hi'⟩))))

theorem At.store {a : ℕ} (h : l.At m n) (ha : a < l.currentVideo ∨ l.currentVideo + 8 ≤ a) (x : UInt8) :
    l.At (update m a x) n := h.congr fun i hi hi' => Function.update_of_ne (by omega) ..

theorem At.toNat (h : l.At m n) (hn : n < screenSize) (d : ℕ) (hd : d ≤ 1) :
    (m.wordAt l.currentVideo + .ofNat d).toNat = video + 2 * n + d := by
  have hsize : screenSize = 2000 := rfl
  have hvideo : video = 0xB8000 := rfl
  rw [h, ← UInt64.ofNat_add, UInt64.toNat_ofNat', Nat.mod_eq_of_lt (by omega)]

theorem Same.store {a : ℕ} (ha : l.Owns a) (m : Bytes) (x : UInt8) : l.Same m (update m a x) := by
  intro i hi
  rw [Function.update_of_ne]
  rintro rfl
  exact hi ha

/-- A print from the `n`-th character on shows at most `k` characters more. -/
def Prints (l : NaiveConsole) (k : ℕ) (f : Bytes → Option Bytes) : Prop :=
  ∀ m n, l.At m n → n + k < screenSize → ∃ m' n', f m = some m' ∧ n' ≤ n + k ∧ l.At m' n' ∧ l.Same m m'

theorem Prints.andThen (h : l.Prints k f) (h' : l.Prints j g) : l.Prints (k + j) fun m => f m >>= g := by
  intro m n hat hn
  obtain ⟨m₁, n₁, hrun, hn₁, hat₁, hsame⟩ := h m n hat (by omega)
  obtain ⟨m', n', hrun', hn', hat', hsame'⟩ := h' m₁ n₁ hat₁ (by omega)
  exact ⟨m', n', by dsimp only; rw [hrun]; exact hrun', by omega, hat', hsame.trans hsame'⟩

/-! ### The prints -/

theorem ncPrintChar_shows (hl : l.Apart) (h : l.At m n) (hn : n + 1 < screenSize) (c : UInt8) :
    l.At (l.ncPrintChar m c) (n + 1) ∧ l.Same m (l.ncPrintChar m c) := by
  have hscreen := hl.screen
  have hmax := hl.maxVideo
  have hattr {m : Bytes} {n : ℕ} (h : l.At m n) (hn : n < screenSize) :
      (m.wordAt l.currentVideo + 1).toNat = video + 2 * n + 1 := h.toNat hn 1 le_rfl
  have howns (i : ℕ) (h1 : video + 2 * n ≤ i) (h2 : i < video + 2 * (n + 2)) : l.Owns i := Or.inl (by omega)
  unfold ncPrintChar
  extract_lets m₁ m₂ m₃ m₄
  have h₁ : l.At m₁ n ∧ l.Same m m₁ := by
    simp only [m₁, cambioCursor, hattr h (by omega)]
    exact ⟨h.store (by omega) _, .store (howns _ (by omega) (by omega)) _ _⟩
  have h₂ : l.At m₂ n ∧ l.Same m m₂ := by
    have haddr : (m₁.wordAt l.currentVideo).toNat = video + 2 * n := by
      have hzero := h₁.1.toNat (by omega) 0 (Nat.zero_le 1)
      simpa using hzero
    simp only [m₂, haddr]
    exact ⟨h₁.1.store (by omega) _, h₁.2.trans (.store (howns _ (by omega) (by omega)) _ _)⟩
  have h₃ : l.At m₃ (n + 1) ∧ l.Same m m₃ := by
    refine ⟨?_, h₂.2.trans fun i hi => Bytes.setWord_out ?_⟩
    · rw [At, Bytes.wordAt_setWord, h₂.1]
      show UInt64.ofNat (video + 2 * n) + .ofNat 2 = _
      rw [← UInt64.ofNat_add, Nat.add_assoc, ← Nat.mul_succ]
    · by_contra hin
      exact hi (Or.inr (Or.inl (by omega)))
  have h₄ : l.At m₄ (n + 1) ∧ l.Same m m₄ := by
    simp only [m₄, cursor, hattr h₃.1 hn]
    exact ⟨h₃.1.store (by omega) _, h₃.2.trans (.store (howns _ (by omega) (by omega)) _ _)⟩
  split
  · refine ⟨h₄.1.congr fun i hi hi' => Bytes.setWord_out (by omega), h₄.2.trans fun i hi => Bytes.setWord_out ?_⟩
    by_contra hin
    exact hi (Or.inr (Or.inr (Or.inl (by omega))))
  · exact h₄

theorem ncPrint_shows (hl : l.Apart) (h : l.At m n) (hn : n + string.length < screenSize) :
    l.At (l.ncPrint m string) (n + string.length) ∧ l.Same m (l.ncPrint m string) := by
  induction string generalizing m n with
  | nil => exact ⟨h, .refl m⟩
  | cons c string ih =>
    rw [List.length_cons] at hn ⊢
    obtain ⟨hat, hsame⟩ := ncPrintChar_shows hl h (by omega) c
    obtain ⟨hat', hsame'⟩ := ih hat (by omega)
    rw [Nat.add_assoc, Nat.add_comm 1] at hat'
    rw [ncPrint, List.foldl_cons]
    exact ⟨hat', hsame.trans hsame'⟩

theorem prints_text (hl : l.Apart) (string : List UInt8) :
    l.Prints string.length fun m => some (l.ncPrint m string) := fun _ _ hat hn =>
  ⟨_, _, rfl, le_rfl, ncPrint_shows hl hat hn⟩

/-- At the end of a row the loop ends. -/
theorem At.row (h : l.At m n) (hn : n < screenSize) :
    (m.wordAt l.currentVideo - .ofNat video) % .ofNat (width * 2) ≠ 0 ↔ n % width ≠ 0 := by
  have hsize : screenSize = 2000 := rfl
  have hwidth : width = 80 := rfl
  have hoff : m.wordAt l.currentVideo - .ofNat video = .ofNat (2 * n) := by
    rw [h, UInt64.ofNat_add, UInt64.add_comm, UInt64.add_sub_cancel]
  have hmod : (UInt64.ofNat (2 * n) % .ofNat (width * 2)).toNat = 2 * n % 160 := by
    have hrow : (UInt64.ofNat (width * 2)).toNat = 160 := rfl
    have hplace : (UInt64.ofNat (2 * n)).toNat = 2 * n := by
      rw [UInt64.toNat_ofNat', Nat.mod_eq_of_lt (by omega)]
    rw [UInt64.toNat_mod, hplace, hrow]
  rw [hoff, ne_eq, ← UInt64.toNat_inj, hmod, hwidth]
  show ¬2 * n % 160 = 0 ↔ n % 80 ≠ 0
  omega

theorem newlineFrom_shows (hl : l.Apart) (fuel : ℕ) (h : l.At m n) (hn : n + fuel < screenSize)
    (hrow : ∃ d < fuel, (n + d + 1) % width = 0) :
    ∃ m' n', l.newlineFrom fuel m = some m' ∧ n' ≤ n + fuel ∧ l.At m' n' ∧ l.Same m m' := by
  induction fuel generalizing m n with
  | zero =>
    obtain ⟨d, hd, -⟩ := hrow
    omega
  | succ fuel ih =>
    obtain ⟨hat, hsame⟩ := ncPrintChar_shows hl h (by omega) (byte ' ')
    rw [newlineFrom]
    by_cases hend : (n + 1) % width = 0
    · rw [if_neg (by rw [hat.row (by omega)]; omega)]
      exact ⟨_, n + 1, rfl, by omega, hat, hsame⟩
    · rw [if_pos ((hat.row (by omega)).mpr hend)]
      obtain ⟨d, hd, hrow⟩ := hrow
      have hd0 : d ≠ 0 := fun he => hend (by simpa [he] using hrow)
      obtain ⟨m', n', hrun, hn', hat', hsame'⟩ := ih hat (by omega)
        ⟨d - 1, by omega, by rw [show n + 1 + (d - 1) + 1 = n + d + 1 by omega, hrow]⟩
      exact ⟨m', n', hrun, by omega, hat', hsame.trans hsame'⟩

theorem prints_newline (hl : l.Apart) : l.Prints width l.ncNewline := fun m n hat hn => by
  have hrow : (n + (79 - n % 80) + 1) % 80 = 0 := by omega
  exact newlineFrom_shows hl width hat hn ⟨79 - n % 80, show 79 - n % 80 < 80 by omega, hrow⟩

theorem prints_base (hl : l.Apart) (hb : 1 < base) (hk : (numeral base value).length ≤ k) (hfits : k < consoleBuffer) :
    l.Prints k fun m => l.ncPrintBase m value base := fun m n hat hn => by
  obtain ⟨digits, buffer, hrun, hfirst, -⟩ :=
    uintToBase_first hb value (.fresh fun i => Char.ofNat (m (l.buffer + i)).toNat)
  have hdigits : digits = (numeral base value).length := by
    rw [← Cells.first_length buffer digits, hfirst, List.length_map]
  have hlen : ((buffer.first (digits + 1)).map byte).length = digits + 1 := by simp
  have hbuffer := hl.buffer
  have hat' : l.At (m.place l.buffer ((buffer.first (digits + 1)).map byte)) n :=
    hat.congr fun i hi hi' => Bytes.place_out (by omega)
  have hsame : l.Same m (m.place l.buffer ((buffer.first (digits + 1)).map byte)) := fun i hi => Bytes.place_out (by
    by_contra hin
    exact hi (Or.inr (Or.inr (Or.inr (by omega)))))
  have hlen' : ((buffer.first digits).map byte).length = digits := by simp
  have hroom : n + ((buffer.first digits).map byte).length < screenSize := by omega
  obtain ⟨hat'', hsame'⟩ := ncPrint_shows hl hat' hroom
  refine ⟨_, _, ?_, by omega, hat'', hsame.trans hsame'⟩
  show l.ncPrintBase m value base = _
  rw [ncPrintBase, hrun]
  rfl

/-- At most so many characters are shown by the call. -/
def PrintCall.length : PrintCall → ℕ
  | .print string => string.length
  | .hex _ => 16
  | .dec _ => 10
  | .newline => width

/-- Hexadecimal numbers are `uint64_t`, and decimal ones `uint32_t`. -/
def PrintCall.Fits : PrintCall → Prop
  | .hex value => value < 2 ^ 64
  | .dec value => value < 2 ^ 32
  | .print _ | .newline => True

theorem prints_call (hl : l.Apart) {c : PrintCall} (hc : c.Fits) : l.Prints c.length fun m => l.call m c := by
  cases c with
  | print string => exact prints_text hl string
  | hex value =>
    have hlen : (numeral 16 value).length ≤ 16 := (numeral_length_le (by decide) (by decide)).mpr hc
    exact prints_base hl (by decide) hlen (show 16 < consoleBuffer by decide)
  | dec value =>
    have hlt : value < 10 ^ 10 := lt_of_lt_of_le (show value < 2 ^ 32 from hc) (by decide)
    have hlen : (numeral 10 value).length ≤ 10 := (numeral_length_le (by decide) (by decide)).mpr hlt
    exact prints_base hl (by decide) hlen (show 10 < consoleBuffer by decide)
  | newline => exact prints_newline hl

/-- The calls end as long as the screen has room for what they show. -/
theorem prints_calls (hl : l.Apart) (hcs : ∀ c ∈ cs, c.Fits) :
    l.Prints (cs.map PrintCall.length).sum fun m => l.calls m cs := by
  induction cs with
  | nil => exact fun m n hat _ => ⟨m, n, rfl, Nat.le_add_right .., hat, .refl m⟩
  | cons c cs ih =>
    have hrest := ih fun c' hc' => hcs c' (List.mem_cons_of_mem c hc')
    exact (prints_call hl (hcs c List.mem_cons_self)).andThen hrest

end NaiveConsole

end BareKernel.Console

import BareKernel.Links.Cells
import BareKernel.Links.Numeral
import BareKernel.Word

/-! Numbers on the screen: `uintToBase` of `naiveConsole.c`, and `printHexaVideo` of
`drivers/video-driver.c`, which gives it a buffer of 16 characters. Sixteen digits fill that
buffer, so the values from 16 ^ 15 on have no room for the mark that ends the string. -/

namespace BareKernel.Console

open Links

/-- The size of the buffer of `printHexaVideo`. -/
def hexaSize : ℕ := 16

def nul : Char := Char.ofNat 0

/-- The character of a remainder. -/
def digit (remainder : ℕ) : Char :=
  if remainder < 10 then Char.ofNat (remainder + '0'.toNat) else Char.ofNat (remainder + 'A'.toNat - 10)

/-- The division loop, at place `p`: the place behind the last digit. `none` when the fuel
runs out. -/
def divide (base : ℕ) : ℕ → ℕ → ℕ → Cells ℕ Char → Option (ℕ × Cells ℕ Char)
  | 0, _, _, _ => none
  | fuel + 1, value, p, buffer =>
    let buffer := buffer.store p (digit (value % base))
    if value / base ≠ 0 then divide base fuel (value / base) (p + 1) buffer else some (p + 1, buffer)

/-- The number of digits, and the buffer. A loop that divides more often than the value is
large never ends. -/
def uintToBase (value : ℕ) (buffer : Cells ℕ Char) (base : ℕ) : Option (ℕ × Cells ℕ Char) := do
  let (p, buffer) ← divide base (value + 1) value 0 buffer
  let buffer := buffer.store p nul
  some (p, buffer.swapEnds 0 (p - 1))

/-- The call of `uintToBase`, with `buffer` full of zeros. -/
def printHexaVideo (value : ℕ) : Option (ℕ × Cells ℕ Char) :=
  uintToBase value (Cells.fresh fun _ => nul) 16

/-- The call ends and stores inside of the buffer, which then holds the hexadecimal digits of the
value. -/
def PrintsHexa (value : ℕ) : Prop :=
  ∃ digits buffer, printHexaVideo value = some (digits, buffer) ∧ buffer.Inside (Set.Iio hexaSize) ∧
    Spells nul buffer.cell ((numeral 16 value).map digit)

variable {base value p fuel : ℕ} {buffer : Cells ℕ Char}

/-- The digits from the last one on. -/
theorem divide_eq (hb : 1 < base) (hfuel : value < fuel) :
    divide base fuel value p buffer =
      some (p + (numeral base value).length, buffer.storeAll p ((numeral base value).reverse.map digit)) := by
  induction fuel generalizing value p buffer with
  | zero => omega
  | succ fuel ih =>
    rw [divide, numeral_eq hb]
    by_cases hq : value / base = 0
    · rw [if_neg (not_not.mpr hq), if_pos hq]
      rfl
    · have hlt : value / base < value := Nat.div_lt_self (Nat.pos_of_ne_zero fun hv => hq (by simp [hv])) hb
      rw [if_pos hq, ih (by omega), if_neg hq, List.map_reverse, List.map_reverse, List.map_append, List.map_singleton]
      rw [Cells.storeAll_reverse_concat, List.length_append, List.length_singleton, Nat.add_assoc, Nat.add_comm 1]

/-- The digits, from the last one on, and the mark behind them. -/
def unreversed (base value : ℕ) (buffer : Cells ℕ Char) : Cells ℕ Char :=
  (buffer.storeAll 0 ((numeral base value).reverse.map digit)).store (numeral base value).length nul

theorem uintToBase_eq (hb : 1 < base) (value : ℕ) (buffer : Cells ℕ Char) :
    uintToBase value buffer base = some ((numeral base value).length,
      (unreversed base value buffer).swapEnds 0 ((numeral base value).length - 1)) := by
  rw [uintToBase, divide_eq hb (Nat.lt_succ_self value), Nat.zero_add]
  rfl

theorem unreversed_first (base value : ℕ) (buffer : Cells ℕ Char) :
    (unreversed base value buffer).first (numeral base value).length = ((numeral base value).map digit).reverse := by
  have hall := buffer.first_storeAll 0 ((numeral base value).reverse.map digit)
  rw [List.length_map, List.length_reverse, Nat.zero_add] at hall
  rw [unreversed, Cells.first_store_ge le_rfl, hall, List.map_reverse]
  rfl

theorem uintToBase_first (hb : 1 < base) (value : ℕ) (buffer : Cells ℕ Char) :
    ∃ n buffer', uintToBase value buffer base = some (n, buffer') ∧
      buffer'.first n = (numeral base value).map digit ∧ buffer'.cell n = nul := by
  have hpos := List.length_pos_of_ne_nil (numeral_ne_nil hb value)
  refine ⟨_, _, uintToBase_eq hb value buffer, ?_, ?_⟩
  · rw [Cells.first_swapEnds, unreversed_first, List.reverse_reverse]
  · rw [Cells.swapEnds_cell, if_neg (by omega)]
    exact Function.update_self ..

/-- The mark takes the place behind the digits. -/
theorem uintToBase_inside (hb : 1 < base) (value size : ℕ) (cell : ℕ → Char) :
    (∃ n buffer, uintToBase value (Cells.fresh cell) base = some (n, buffer) ∧ buffer.Inside (Set.Iio size)) ↔
      (numeral base value).length < size := by
  have hpos := List.length_pos_of_ne_nil (numeral_ne_nil hb value)
  rw [uintToBase_eq hb]
  constructor
  · rintro ⟨n, buffer, hrun, hinside⟩
    obtain ⟨-, rfl⟩ := Prod.mk.inj (Option.some.inj hrun)
    exact Set.mem_Iio.mp (Cells.inside_store.mp hinside.of_swapEnds).1
  · intro hlt
    refine ⟨_, _, rfl, Cells.Inside.swapEnds ?_ (by omega)⟩
    apply Cells.Inside.store
    · exact Cells.inside_storeAll (Cells.inside_fresh cell) (by simpa using hlt.le)
    · exact hlt

/-! ### The register dump -/

theorem digit_ne_nul : ∀ d < 16, digit d ≠ nul := by decide

theorem hexa_ne_nul (value : ℕ) : nul ∉ (numeral 16 value).map digit := by
  intro hnul
  obtain ⟨d, hd, he⟩ := List.mem_map.mp hnul
  exact digit_ne_nul d (numeral_lt (by decide) hd) he

/-- The register dump of a value is right exactly when it has less than 16 digits. -/
theorem print_hexa_video (value : ℕ) : PrintsHexa value ↔ value < 2 ^ 60 := by
  have hinside := uintToBase_inside (show 1 < 16 by decide) value hexaSize fun _ => nul
  have hlen : (numeral 16 value).length < hexaSize ↔ value < 2 ^ 60 :=
    Nat.lt_succ_iff.trans (numeral_length_le (by decide) (by decide))
  rw [← hlen, ← hinside]
  constructor
  · rintro ⟨n, buffer, hrun, hin, -⟩
    exact ⟨n, buffer, hrun, hin⟩
  · rintro ⟨n, buffer, hrun, hin⟩
    obtain ⟨n', buffer', hrun', hfirst, hend⟩ := uintToBase_first (show 1 < 16 by decide) value (.fresh fun _ => nul)
    obtain ⟨rfl, rfl⟩ := Prod.mk.inj (Option.some.inj (hrun.symm.trans hrun'))
    exact ⟨n, buffer, hrun, hin, .of_first hfirst hend (hexa_ne_nul value)⟩

/-- The mark behind the digits of 0x1000000000000000 is stored behind the buffer. -/
theorem print_hexa_video_sixteenDigits : ¬∀ value < wordSize, PrintsHexa value := by
  intro hall
  obtain ⟨n, buffer, hrun, hin, -⟩ := hall (2 ^ 60) (by decide)
  have hfits := (uintToBase_inside (by decide) (2 ^ 60) hexaSize fun _ => nul).mp ⟨n, buffer, hrun, hin⟩
  have hlt : 2 ^ 60 < 16 ^ 15 := (numeral_length_le (by decide) (by decide)).mp (Nat.lt_succ_iff.mp hfits)
  omega

end BareKernel.Console

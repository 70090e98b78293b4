import Mathlib.Data.Nat.Digits.Lemmas

/-! Numerals: the digits of a number as they are written, the most significant one first. Zero is
written with one digit, and no other number begins with a zero. -/

namespace BareKernel.Links

variable {b n k d : ℕ}

def numeral (b n : ℕ) : List ℕ := if n = 0 then [0] else (Nat.digits b n).reverse

/-- The number that digits stand for. -/
def readDigits (b : ℕ) (ds : List ℕ) : ℕ := ds.foldl (fun v d => v * b + d) 0

theorem readDigits_concat (b : ℕ) (ds : List ℕ) (d : ℕ) : readDigits b (ds ++ [d]) = readDigits b ds * b + d := by
  simp [readDigits, List.foldl_append]

/-- The last digit is the remainder, and the digits before it write the quotient. -/
theorem numeral_eq (hb : 1 < b) (n : ℕ) :
    numeral b n = (if n / b = 0 then [] else numeral b (n / b)) ++ [n % b] := by
  unfold numeral
  by_cases hn : n = 0
  · simp [hn]
  · rw [if_neg hn, Nat.digits_def' hb (Nat.pos_of_ne_zero hn), List.reverse_cons]
    by_cases hq : n / b = 0
    · simp [hq]
    · simp [hq]

theorem numeral_ne_nil (hb : 1 < b) (n : ℕ) : numeral b n ≠ [] := by
  rw [numeral_eq hb]
  simp

theorem numeral_lt (hb : 1 < b) (hd : d ∈ numeral b n) : d < b := by
  unfold numeral at hd
  split at hd
  · rw [List.mem_singleton.mp hd]
    omega
  · exact Nat.digits_lt_base hb (List.mem_reverse.mp hd)

/-- Only zero begins with a zero. -/
theorem numeral_head (hn : n ≠ 0) : (numeral b n).head? ≠ some 0 := by
  rw [numeral, if_neg hn, List.head?_reverse]
  intro hzero
  rw [List.getLast?_eq_getLast_of_ne_nil (Nat.digits_ne_nil_iff_ne_zero.mpr hn)] at hzero
  exact Nat.getLast_digit_ne_zero b hn (Option.some.inj hzero)

/-- Reading a numeral gives the number. -/
theorem readDigits_numeral (hb : 1 < b) (n : ℕ) : readDigits b (numeral b n) = n := by
  induction n using Nat.strong_induction_on with
  | _ n ih =>
    have hdiv := Nat.div_add_mod' n b
    rw [numeral_eq hb, readDigits_concat]
    by_cases hq : n / b = 0
    · rw [if_pos hq]
      rw [hq] at hdiv
      simpa [readDigits] using hdiv
    · have hlt : n / b < n := Nat.div_lt_self (Nat.pos_of_ne_zero fun hn => hq (by simp [hn])) hb
      rw [if_neg hq, ih _ hlt]
      exact hdiv

theorem numeral_length_le (hb : 1 < b) (hk : 0 < k) : (numeral b n).length ≤ k ↔ n < b ^ k := by
  unfold numeral
  split
  · rename_i hn
    simp only [hn, List.length_singleton]
    exact iff_of_true hk (Nat.pow_pos (by omega))
  · rw [List.length_reverse, Nat.digits_length_le_iff hb]

end BareKernel.Links

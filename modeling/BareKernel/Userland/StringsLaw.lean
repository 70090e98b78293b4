import BareKernel.Userland.Strings
import BareKernel.Word

/-! What the printing functions store. The divisions produce the digits from the last one on, and
the copy into the buffer reverses them. `intToString` makes a value positive by negation, which
leaves the most negative one as it is. -/

namespace BareKernel.Userland

open Links

variable {value n j i limit : ℕ} {v : ℤ} {temp buffer : Cells ℕ Char} {bufferSize : ℕ}

/-- The decimal digits of a number, the most significant one first. -/
def decimalNat (n : ℕ) : List Char := (numeral 10 n).map digit

/-- The decimal representation of a number. -/
def decimal (v : ℤ) : List Char := if v < 0 then '-' :: decimalNat v.natAbs else decimalNat v.natAbs

/-- The number that decimal digits stand for. -/
def readDecimal (s : List Char) : ℕ := readDigits 10 (s.map fun c => c.toNat - '0'.toNat)

/-! ### Decimal digits -/

theorem digit_spec : ∀ d < 10, digit d ≠ nul ∧ digit d ≠ '-' ∧ '0' ≤ digit d ∧ digit d ≤ '9' ∧
    (digit d).toNat - '0'.toNat = d ∧ (digit d).toNat = '0'.toNat + d := by decide

theorem mem_decimalNat {c : Char} (hc : c ∈ decimalNat n) : ∃ d < 10, c = digit d := by
  obtain ⟨d, hd, rfl⟩ := List.mem_map.mp hc
  exact ⟨d, numeral_lt (by decide) hd, rfl⟩

theorem nul_notMem_decimalNat (n : ℕ) : nul ∉ decimalNat n := by
  intro hnul
  obtain ⟨d, hd, he⟩ := mem_decimalNat hnul
  exact (digit_spec d hd).1 he.symm

theorem nul_notMem_decimal (v : ℤ) : nul ∉ decimal v := by
  unfold decimal
  split
  · rw [List.mem_cons, not_or]
    exact ⟨by decide, nul_notMem_decimalNat _⟩
  · exact nul_notMem_decimalNat _

theorem decimalNat_length_pos (n : ℕ) : 0 < (decimalNat n).length := by
  rw [decimalNat, List.length_map]
  exact List.length_pos_of_ne_nil (numeral_ne_nil (by decide) n)

theorem decimalNat_length_le {k : ℕ} (hk : 0 < k) : (decimalNat n).length ≤ k ↔ n < 10 ^ k := by
  rw [decimalNat, List.length_map]
  exact numeral_length_le (by decide) hk

theorem decimalNat_eq (n : ℕ) :
    decimalNat n = (if n / 10 = 0 then [] else decimalNat (n / 10)) ++ [digit (n % 10)] := by
  rw [decimalNat, numeral_eq (by decide), List.map_append]
  split <;> rfl

theorem decimalNat_head (hn : n ≠ 0) : (decimalNat n).head? ≠ some '0' := by
  rw [decimalNat, List.head?_map]
  intro hzero
  obtain ⟨d, hd, hz⟩ := Option.map_eq_some_iff.mp hzero
  have hlt : d < 10 := numeral_lt (by decide) (List.mem_of_mem_head? hd)
  have hd0 : d = 0 := by
    have hval := (digit_spec d hlt).2.2.2.2.1
    rw [hz] at hval
    exact hval.symm
  exact numeral_head hn (hd0 ▸ hd)

theorem readDecimal_decimalNat (n : ℕ) : readDecimal (decimalNat n) = n := by
  have hback : (decimalNat n).map (fun c => c.toNat - '0'.toNat) = numeral 10 n := by
    rw [decimalNat, List.map_map]
    conv_rhs => rw [← List.map_id (numeral 10 n)]
    apply List.map_congr_left
    intro d hd
    exact (digit_spec d (numeral_lt (by decide) hd)).2.2.2.2.1
  rw [readDecimal, hback, readDigits_numeral (by decide)]

/-! ### Unsigned numbers -/

theorem divideSize_zero (i : ℕ) (temp : Cells ℕ Char) : divideSize 0 i temp = (i, temp) := by
  rw [divideSize, if_neg (lt_irrefl 0)]

/-- The digits from the last one on. -/
theorem divideSize_eq (hv : 0 < value) : divideSize value i temp =
    (i + (decimalNat value).length, temp.storeAll i (decimalNat value).reverse) := by
  induction value using Nat.strong_induction_on generalizing i temp with
  | _ value ih =>
    rw [divideSize, if_pos hv, decimalNat_eq]
    by_cases hq : value / 10 = 0
    · rw [hq, divideSize_zero, if_pos rfl]
      rfl
    · have hlt : value / 10 < value := Nat.div_lt_self hv (by decide)
      rw [ih _ hlt (Nat.pos_of_ne_zero hq), if_neg hq, Cells.storeAll_reverse_concat, List.length_append]
      rw [List.length_singleton, Nat.add_assoc, Nat.add_comm 1]

/-- The scratch array holds the characters from the last one on; the copy has them in order. -/
theorem copyBack_reverse {s : List Char} (temp buffer : Cells ℕ Char) (h : s.length ≤ n) :
    Cells.copyBack (temp.storeAll 0 s.reverse).cell s.length n 0 buffer = buffer.storeAll 0 s := by
  have hall := temp.first_storeAll 0 s.reverse
  rw [Nat.zero_add, List.length_reverse] at hall
  rw [Cells.copyBack_eq h, Nat.sub_zero]
  exact congrArg (buffer.storeAll 0) ((congrArg List.reverse hall).trans (List.reverse_reverse s))

/-- What `size_t_to_str` is for. -/
structure PrintsSize (value : ℕ) (temp buffer : Cells ℕ Char) : Prop where
  scratch : temp.Inside (Set.Iio sizeTemp)
  inside : buffer.Inside (Set.Iio ((decimalNat value).length + 1))
  digits : Spells nul buffer.cell (decimalNat value)
  canonical : value ≠ 0 → (decimalNat value).head? ≠ some '0'
  value : readDecimal (decimalNat value) = value

/-- Every 64-bit value is printed; the scratch array has room for 20 digits. -/
theorem size_t_to_str_prints (hv : value < wordSize) (temp cell : ℕ → Char) :
    PrintsSize value (sizeTToStr value temp (.fresh cell)).1 (sizeTToStr value temp (.fresh cell)).2 := by
  have hlen : (decimalNat value).length ≤ sizeTemp :=
    (decimalNat_length_le (by decide)).mpr (hv.trans (by decide))
  have hcanon := fun hn : value ≠ 0 => decimalNat_head hn
  have hread := readDecimal_decimalNat value
  have hspells := Spells.storeAll (.fresh cell) (nul_notMem_decimalNat value)
  have hin := (Cells.inside_storeAll_store (x := nul) cell _).mpr (Nat.lt_succ_self (decimalNat value).length)
  unfold sizeTToStr
  by_cases h0 : value = 0
  · subst h0
    rw [if_pos rfl]
    exact ⟨Cells.inside_fresh temp, hin, hspells, hcanon, hread⟩
  · rw [if_neg h0, divideSize_eq (Nat.pos_of_ne_zero h0)]
    dsimp only
    rw [Nat.zero_add, copyBack_reverse _ _ le_rfl]
    refine ⟨?_, hin, hspells, hcanon, hread⟩
    exact Cells.inside_storeAll (Cells.inside_fresh temp) (by rw [List.length_reverse]; omega)

theorem size_t_to_str_prints_largest :
    PrintsSize (2 ^ 64 - 1) (sizeTToStr (2 ^ 64 - 1) (fun _ => nul) (.fresh fun _ => nul)).1
      (sizeTToStr (2 ^ 64 - 1) (fun _ => nul) (.fresh fun _ => nul)).2 :=
  size_t_to_str_prints (by decide) _ _

/-! ### Signed numbers -/

theorem toInt_eq {x : ℤ} (hlow : -2 ^ 31 ≤ x) (hhigh : x < 2 ^ 31) : toInt x = x := by
  unfold toInt
  rw [Int.bmod_def]
  split <;> omega

theorem divideInt_zero (j : ℕ) (temp : Cells ℕ Char) : divideInt 0 j temp = (j, temp) := by
  rw [divideInt, if_neg (by simp)]

/-- With room for them all, the digits from the last one on. -/
theorem divideInt_eq (hn : 0 < n) (hroom : j + (decimalNat n).length ≤ intTemp) :
    divideInt n j temp = (j + (decimalNat n).length, temp.storeAll j (decimalNat n).reverse) := by
  induction n using Nat.strong_induction_on generalizing j temp with
  | _ n ih =>
    have hquot : (n : ℤ).tdiv 10 = (n / 10 : ℕ) := (Int.ofNat_tdiv n 10).symm
    have hrem : ((n : ℤ).tmod 10).toNat = n % 10 := by
      rw [show (n : ℤ).tmod 10 = (n % 10 : ℕ) from (Int.ofNat_tmod n 10).symm, Int.toNat_natCast]
    have hpos := decimalNat_length_pos n
    rw [divideInt, if_pos ⟨by exact_mod_cast hn, by omega⟩, hquot, hrem]
    rw [decimalNat_eq] at hroom ⊢
    by_cases hq : n / 10 = 0
    · rw [hq, Nat.cast_zero, divideInt_zero, if_pos rfl]
      rfl
    · have hlt : n / 10 < n := Nat.div_lt_self hn (by decide)
      rw [if_neg hq, List.length_append, List.length_singleton] at hroom
      rw [ih _ hlt (Nat.pos_of_ne_zero hq) (by omega), if_neg hq, Cells.storeAll_reverse_concat, List.length_append]
      rw [List.length_singleton, Nat.add_assoc, Nat.add_comm 1]

/-- The digits, with a sign before them when there is one. -/
def signed (isNegative : Bool) (n : ℕ) : List Char :=
  if isNegative = true then '-' :: decimalNat n else decimalNat n

theorem intDigits_eq (isNegative : Bool) (temp : Cells ℕ Char) (hlen : (decimalNat n).length < intTemp) :
    intDigits n isNegative temp = ((signed isNegative n).length, temp.storeAll 0 (signed isNegative n).reverse) := by
  have hdigits : (if (n : ℤ) = 0 then (1, temp.store 0 '0') else divideInt n 0 temp) =
      ((decimalNat n).length, temp.storeAll 0 (decimalNat n).reverse) := by
    rcases Nat.eq_zero_or_pos n with rfl | hn
    · rfl
    · rw [if_neg (by omega), divideInt_eq hn (by omega), Nat.zero_add]
  have hsign := temp.storeAll_concat 0 (decimalNat n).reverse '-'
  rw [Nat.zero_add, List.length_reverse] at hsign
  unfold intDigits signed
  rw [hdigits]
  cases isNegative with
  | false => rfl
  | true =>
    dsimp only
    rw [if_pos ⟨rfl, hlen⟩, if_pos rfl, List.reverse_cons, List.length_cons, hsign]

theorem fillBuffer_eq {s : List Char} (temp buffer : Cells ℕ Char) (hfits : s.length < bufferSize) :
    fillBuffer (temp.storeAll 0 s.reverse).cell s.length buffer bufferSize =
      (buffer.storeAll 0 s).store s.length nul := by
  have hplace : (if s.length < bufferSize - 1 then s.length else bufferSize - 1) = s.length := by
    split <;> omega
  rw [fillBuffer, if_neg (by omega)]
  dsimp only
  rw [hplace, copyBack_reverse _ _ (by omega)]

/-- A buffer that is too small gets the empty string. -/
theorem fillBuffer_short (temp : ℕ → Char) (h : bufferSize ≤ j) :
    fillBuffer temp j buffer bufferSize = (buffer.storeAll 0 []).store 0 nul := by
  rw [fillBuffer, if_pos h]
  rfl

/-- What `int_to_string` is for; what a buffer that is large enough holds reads back as the value. -/
structure PrintsInt (v : ℤ) (bufferSize : ℕ) (temp buffer : Cells ℕ Char) : Prop where
  scratch : temp.Inside (Set.Iio intTemp)
  inside : buffer.Inside (Set.Iio bufferSize)
  text : Spells nul buffer.cell (if (decimal v).length < bufferSize then decimal v else [])
  back : 0 ≤ v → (decimal v).length < bufferSize → ∀ s, Spells nul buffer.cell s → strToInt s = v

theorem foldl_ge (ds : List ℕ) (res : ℕ) : res ≤ ds.foldl (fun v d => v * 10 + d) res := by
  induction ds generalizing res with
  | nil => exact le_rfl
  | cons d ds ih => exact le_trans (by omega) (ih (res * 10 + d))

/-- As long as the number fits into an `int`, nothing wraps. -/
theorem readInt_digits {ds : List ℕ} {res : ℕ} (hds : ∀ d ∈ ds, d < 10)
    (hfits : ds.foldl (fun v d => v * 10 + d) res < 2 ^ 31) :
    readInt res (ds.map digit) = (ds.foldl (fun v d => v * 10 + d) res : ℕ) := by
  induction ds generalizing res with
  | nil => rfl
  | cons d ds ih =>
    obtain ⟨-, -, hlow, hhigh, -, hcode⟩ := digit_spec d (hds d List.mem_cons_self)
    rw [List.foldl_cons] at hfits
    have hle := foldl_ge ds (res * 10 + d)
    have hnext : toInt (res * 10 + ((digit d).toNat - '0'.toNat : ℤ)) = (res * 10 + d : ℕ) := by
      rw [hcode]
      push_cast
      rw [add_sub_cancel_left]
      exact toInt_eq (by omega) (by omega)
    rw [List.map_cons, readInt, if_pos ⟨hlow, hhigh⟩, hnext, List.foldl_cons]
    exact ih (fun d hd => hds d (List.mem_cons_of_mem _ hd)) hfits

theorem strToInt_decimal (hn : n < 2 ^ 31) : strToInt (decimalNat n) = n := by
  have hread : (numeral 10 n).foldl (fun v d => v * 10 + d) 0 = n := readDigits_numeral (by decide) n
  have hfits : (numeral 10 n).foldl (fun v d => v * 10 + d) 0 < 2 ^ 31 := by
    rw [hread]
    exact hn
  have hrun := readInt_digits (fun d hd => numeral_lt (by decide) hd) hfits
  rw [hread] at hrun
  exact hrun

theorem intToString_eq (temp : ℕ → Char) (buffer : Cells ℕ Char) (hlow : -2 ^ 31 < v) (hhigh : v < 2 ^ 31)
    (hsize : 2 ≤ bufferSize) : intToString v temp buffer bufferSize =
      ((Cells.fresh temp).storeAll 0 (decimal v).reverse,
        fillBuffer ((Cells.fresh temp).storeAll 0 (decimal v).reverse).cell (decimal v).length buffer bufferSize) := by
  have habs : (if v < 0 then toInt (-v) else v) = v.natAbs := by
    split
    · rw [toInt_eq (by omega) (by omega)]
      omega
    · omega
  have hlen : (decimalNat v.natAbs).length < intTemp :=
    Nat.lt_succ_of_le ((decimalNat_length_le (by decide)).mpr (by omega : v.natAbs < 10 ^ 11))
  have hsigned : signed (decide (v < 0)) v.natAbs = decimal v := by simp [signed, decimal]
  unfold intToString
  rw [if_neg (by omega)]
  dsimp only
  rw [habs, intDigits_eq _ _ hlen, hsigned]

/-- The most negative value has no digits, only a sign. -/
theorem intToString_min (temp : ℕ → Char) (buffer : Cells ℕ Char) (hsize : 2 ≤ bufferSize) :
    (intToString (-2 ^ 31) temp buffer bufferSize).2 = (buffer.storeAll 0 ['-']).store 1 nul := by
  have hdigits : intDigits (toInt (2 ^ 31)) true (.fresh temp) = (1, (Cells.fresh temp).storeAll 0 ['-'].reverse) := by
    have hwrap : toInt (2 ^ 31) = -2 ^ 31 := by decide
    rw [hwrap, intDigits, if_neg (by decide), divideInt, if_neg (by decide)]
    rfl
  unfold intToString
  rw [if_neg (by omega)]
  dsimp only
  rw [if_pos (by decide), neg_neg, decide_eq_true (by decide), hdigits]
  exact fillBuffer_eq (s := ['-']) _ _ hsize

theorem decimal_length_pos (v : ℤ) : 0 < (decimal v).length := by
  unfold decimal
  split
  · exact Nat.succ_pos _
  · exact decimalNat_length_pos _

theorem printsInt_one (v : ℤ) (temp cell : ℕ → Char) :
    PrintsInt v 1 (intToString v temp (.fresh cell) 1).1 (intToString v temp (.fresh cell) 1).2 := by
  have hpos := decimal_length_pos v
  have hrun : intToString v temp (.fresh cell) 1 = (.fresh temp, ((Cells.fresh cell).storeAll 0 []).store 0 nul) := by
    rw [intToString, if_pos (by decide), if_pos (by decide)]
    rfl
  rw [hrun]
  refine ⟨Cells.inside_fresh temp, (Cells.inside_storeAll_store cell []).mpr Nat.one_pos, ?_,
    fun _ hlt => absurd hlt (by omega)⟩
  rw [if_neg (by omega)]
  exact Spells.storeAll _ List.not_mem_nil

theorem printsInt_fits (hlow : -2 ^ 31 < v) (hhigh : v < 2 ^ 31) (hsize : 2 ≤ bufferSize) (temp cell : ℕ → Char) :
    PrintsInt v bufferSize (intToString v temp (.fresh cell) bufferSize).1
      (intToString v temp (.fresh cell) bufferSize).2 := by
  have hlen : (decimal v).length ≤ intTemp := by
    have hnat := (decimalNat_length_le (n := v.natAbs) (k := 10) (by decide)).mpr (by omega)
    unfold decimal intTemp
    split
    · rw [List.length_cons]
      omega
    · omega
  rw [intToString_eq temp (.fresh cell) hlow hhigh hsize]
  by_cases hfits : (decimal v).length < bufferSize
  · dsimp only
    rw [fillBuffer_eq _ _ hfits]
    have hspells := Spells.storeAll (.fresh cell) (nul_notMem_decimal v)
    refine ⟨?_, (Cells.inside_storeAll_store cell _).mpr hfits, by rwa [if_pos hfits], fun h0 _ s hs => ?_⟩
    · exact Cells.inside_storeAll (Cells.inside_fresh temp) (by rw [List.length_reverse]; omega)
    · have hnat : decimal v = decimalNat v.natAbs := if_neg (by omega)
      rw [hs.unique hspells, hnat, strToInt_decimal (by omega)]
      omega
  · dsimp only
    rw [fillBuffer_short _ (by omega)]
    refine ⟨?_, (Cells.inside_storeAll_store cell []).mpr (by simp; omega), ?_, fun _ hlt => absurd hlt hfits⟩
    · exact Cells.inside_storeAll (Cells.inside_fresh temp) (by rw [List.length_reverse]; omega)
    · rw [if_neg hfits]
      exact Spells.storeAll _ List.not_mem_nil

theorem not_printsInt_min (temp cell : ℕ → Char) (hsize : 2 ≤ bufferSize) :
    ¬PrintsInt (-2 ^ 31) bufferSize (intToString (-2 ^ 31) temp (.fresh cell) bufferSize).1
      (intToString (-2 ^ 31) temp (.fresh cell) bufferSize).2 := by
  intro h
  have htext := h.text
  rw [intToString_min temp (.fresh cell) hsize] at htext
  have hsign : Spells nul (((Cells.fresh cell).storeAll 0 ['-']).store 1 nul).cell ['-'] :=
    Spells.storeAll _ (by decide)
  have hone := congrArg List.length (hsign.unique htext)
  split at hone
  · have hpos := decimalNat_length_pos (-2 ^ 31 : ℤ).natAbs
    have hcons : (decimal (-2 ^ 31)).length = (decimalNat (-2 ^ 31 : ℤ).natAbs).length + 1 := by
      rw [decimal, if_pos (by decide), List.length_cons]
    rw [List.length_singleton, hcons] at hone
    omega
  · simp at hone

/-- All values but the most negative one are printed, and a buffer of one character is cleared. -/
theorem int_to_string_prints (hlow : -2 ^ 31 ≤ v) (hhigh : v < 2 ^ 31) (hsize : 1 ≤ bufferSize) (temp cell : ℕ → Char) :
    PrintsInt v bufferSize (intToString v temp (.fresh cell) bufferSize).1
      (intToString v temp (.fresh cell) bufferSize).2 ↔ v ≠ -2 ^ 31 ∨ bufferSize = 1 := by
  constructor
  · intro h
    by_contra hnot
    rw [not_or, not_not] at hnot
    obtain ⟨rfl, hone⟩ := hnot
    exact not_printsInt_min temp cell (by omega) h
  · intro h
    by_cases hone : bufferSize = 1
    · subst hone
      exact printsInt_one v temp cell
    · have hmin : v ≠ -2 ^ 31 := h.resolve_right hone
      exact printsInt_fits (by omega) hhigh (by omega) temp cell

theorem int_to_string_prints_largest :
    PrintsInt (2 ^ 31 - 1) 11 (intToString (2 ^ 31 - 1) (fun _ => nul) (.fresh fun _ => nul) 11).1
      (intToString (2 ^ 31 - 1) (fun _ => nul) (.fresh fun _ => nul) 11).2 :=
  (int_to_string_prints (by decide) (by decide) (by decide) _ _).mpr (Or.inl (by decide))

theorem int_to_string_prints_min : ¬∀ (v : ℤ) (bufferSize : ℕ) (temp cell : ℕ → Char),
    -2 ^ 31 ≤ v → v < 2 ^ 31 → 1 ≤ bufferSize →
      PrintsInt v bufferSize (intToString v temp (.fresh cell) bufferSize).1
        (intToString v temp (.fresh cell) bufferSize).2 := fun hall =>
  not_printsInt_min (fun _ => nul) (fun _ => nul) (by decide)
    (hall (-2 ^ 31) 12 (fun _ => nul) (fun _ => nul) (by decide) (by decide) (by decide))

end BareKernel.Userland

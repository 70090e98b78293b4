import Mathlib.Data.List.Basic
import Mathlib.Data.List.Range
import Mathlib.Logic.Function.Basic
import Mathlib.Order.Interval.Set.Defs

/-! Arrays in a memory that has no bounds. A store beyond the end of an array changes other
memory, which is kept here as further cells of the array; the places stored to are remembered,
so that one can say whether all of them were inside. A string is what the cells hold up to an
end mark. -/

namespace BareKernel.Links

open Function (update)

/-- The contents of an array, and the places that have been stored to. -/
structure Cells (ι α : Type*) where
  cell : ι → α
  stored : List ι

namespace Cells

section Stores

variable {ι α : Type*} [DecidableEq ι] {c : Cells ι α} {i : ι} {x : α} {S T : Set ι}

/-- An array that has not been stored to yet. -/
def fresh (cell : ι → α) : Cells ι α := ⟨cell, []⟩

def store (c : Cells ι α) (i : ι) (x : α) : Cells ι α := ⟨update c.cell i x, i :: c.stored⟩

/-- All stores were to places of `S`. -/
def Inside (c : Cells ι α) (S : Set ι) : Prop := ∀ i ∈ c.stored, i ∈ S

omit [DecidableEq ι] in
theorem inside_fresh (cell : ι → α) : (fresh cell).Inside S := fun i hi => by cases hi

theorem inside_store : (c.store i x).Inside S ↔ i ∈ S ∧ c.Inside S := List.forall_mem_cons

theorem Inside.store (h : c.Inside S) (hi : i ∈ S) : (c.store i x).Inside S := inside_store.mpr ⟨hi, h⟩

end Stores

variable {α : Type*} {c : Cells ℕ α} {i j n m : ℕ} {x : α} {xs : List α} {S : Set ℕ}

/-! ### The first cells -/

/-- The contents of the first `n` cells. -/
def first (c : Cells ℕ α) (n : ℕ) : List α := (List.range n).map c.cell

@[simp] theorem first_length (c : Cells ℕ α) (n : ℕ) : (c.first n).length = n := by simp [first]

theorem first_succ (c : Cells ℕ α) (n : ℕ) : c.first (n + 1) = c.first n ++ [c.cell n] := by
  simp [first, List.range_succ]

theorem first_congr {c' : Cells ℕ α} (h : ∀ i < n, c'.cell i = c.cell i) : c'.first n = c.first n :=
  List.map_congr_left fun i hi => h i (List.mem_range.mp hi)

/-- A store behind the first cells leaves them alone. -/
theorem first_store_ge (h : n ≤ i) : (c.store i x).first n = c.first n :=
  first_congr fun j hj => Function.update_of_ne (by omega) ..

theorem first_store (c : Cells ℕ α) (n : ℕ) (x : α) : (c.store n x).first (n + 1) = c.first n ++ [x] := by
  rw [first_succ, first_store_ge le_rfl]
  simp [store]

/-! ### Stores in a row -/

/-- Store the elements one behind the other, from `i` on. -/
def storeAll (c : Cells ℕ α) : ℕ → List α → Cells ℕ α
  | _, [] => c
  | i, x :: xs => (c.store i x).storeAll (i + 1) xs

theorem first_storeAll (c : Cells ℕ α) (i : ℕ) (xs : List α) :
    (c.storeAll i xs).first (i + xs.length) = c.first i ++ xs := by
  induction xs generalizing c i with
  | nil => simp [storeAll]
  | cons x xs ih =>
    have hlen : i + (x :: xs).length = i + 1 + xs.length := by
      rw [List.length_cons]
      omega
    rw [storeAll, hlen, ih, first_store, List.append_assoc]
    rfl

theorem storeAll_concat (c : Cells ℕ α) (i : ℕ) (xs : List α) (x : α) :
    (c.storeAll i xs).store (i + xs.length) x = c.storeAll i (xs ++ [x]) := by
  induction xs generalizing c i with
  | nil => rfl
  | cons y xs ih =>
    rw [storeAll, List.length_cons, Nat.add_comm xs.length, ← Nat.add_assoc]
    exact ih (c.store i y) (i + 1)

/-- A list from its last element on. -/
theorem storeAll_reverse_concat (c : Cells ℕ α) (i : ℕ) (xs : List α) (x : α) :
    c.storeAll i (xs ++ [x]).reverse = (c.store i x).storeAll (i + 1) xs.reverse := by
  rw [List.reverse_append]
  rfl

theorem inside_storeAll (hc : c.Inside (Set.Iio n)) (h : i + xs.length ≤ n) :
    (c.storeAll i xs).Inside (Set.Iio n) := by
  induction xs generalizing c i with
  | nil => exact hc
  | cons x xs ih =>
    rw [List.length_cons] at h
    apply ih
    · exact hc.store (Set.mem_Iio.mpr (by omega))
    · omega

/-- Elements and a mark behind them fit when there are less of them than places. -/
theorem inside_storeAll_store (cell : ℕ → α) (xs : List α) :
    (((fresh cell).storeAll 0 xs).store xs.length x).Inside (Set.Iio n) ↔ xs.length < n := by
  constructor
  · exact fun h => (inside_store.mp h).1
  · exact fun h => (inside_storeAll (inside_fresh cell) (by omega)).store h

/-- Copy the first `i` cells of `temp` in reverse order, from place `j` on, up to `n`. -/
def copyBack (temp : ℕ → α) (i n j : ℕ) (c : Cells ℕ α) : Cells ℕ α :=
  if j < i ∧ j < n then copyBack temp i n (j + 1) (c.store j (temp (i - j - 1))) else c
termination_by i - j

theorem copyBack_eq {temp : ℕ → α} (h : i ≤ n) :
    copyBack temp i n j c = c.storeAll j ((List.range (i - j)).map temp).reverse := by
  induction hk : i - j generalizing j c with
  | zero =>
    rw [copyBack, if_neg (by omega)]
    rfl
  | succ k ih =>
    rw [copyBack, if_pos (by omega), ih (by omega), List.range_succ, List.map_append, List.reverse_append]
    rw [show i - j - 1 = k by omega]
    rfl

/-! ### Reversal in place -/

/-- Swap the cells `p₁` and `p₂`, and go on inwards. -/
def swapEnds (c : Cells ℕ α) (p₁ p₂ : ℕ) : Cells ℕ α :=
  if p₁ < p₂ then swapEnds ((c.store p₁ (c.cell p₂)).store p₂ (c.cell p₁)) (p₁ + 1) (p₂ - 1) else c
termination_by p₂ - p₁

theorem swap_cell (c : Cells ℕ α) (p₁ p₂ i : ℕ) :
    ((c.store p₁ (c.cell p₂)).store p₂ (c.cell p₁)).cell i =
      c.cell (if i = p₂ then p₁ else if i = p₁ then p₂ else i) := by
  unfold store
  dsimp only
  by_cases h₂ : i = p₂
  · rw [if_pos h₂, h₂, Function.update_self]
  · rw [if_neg h₂, Function.update_of_ne h₂]
    by_cases h₁ : i = p₁
    · rw [if_pos h₁, h₁, Function.update_self]
    · rw [if_neg h₁, Function.update_of_ne h₁]

/-- Between the ends the cells are mirrored. -/
theorem swapEnds_cell (c : Cells ℕ α) (p₁ p₂ i : ℕ) :
    (c.swapEnds p₁ p₂).cell i = c.cell (if p₁ ≤ i ∧ i ≤ p₂ then p₁ + p₂ - i else i) := by
  fun_induction swapEnds c p₁ p₂ with
  | case1 c p₁ p₂ hlt ih =>
    rw [ih, swap_cell]
    congr 1
    split_ifs <;> omega
  | case2 c p₁ p₂ hge =>
    congr 1
    split_ifs <;> omega

theorem first_swapEnds (c : Cells ℕ α) (n : ℕ) : (c.swapEnds 0 (n - 1)).first n = (c.first n).reverse := by
  apply List.ext_getElem
  · simp
  · intro i hi hi'
    rw [first_length] at hi
    simp only [first, List.getElem_map, List.getElem_range, List.getElem_reverse, List.length_map, List.length_range,
      swapEnds_cell]
    congr 1
    rw [if_pos (by omega)]
    omega

theorem Inside.swapEnds {p₁ p₂ : ℕ} (h : c.Inside (Set.Iio n)) (hp : p₂ < n) :
    (c.swapEnds p₁ p₂).Inside (Set.Iio n) := by
  fun_induction Cells.swapEnds c p₁ p₂ with
  | case1 c p₁ p₂ hlt ih =>
    apply ih
    · exact (h.store (Set.mem_Iio.mpr (by omega))).store (Set.mem_Iio.mpr hp)
    · omega
  | case2 c p₁ p₂ hge => exact h

/-- Swapping forgets no store. -/
theorem Inside.of_swapEnds {p₁ p₂ : ℕ} (h : (c.swapEnds p₁ p₂).Inside S) : c.Inside S := by
  fun_induction Cells.swapEnds c p₁ p₂ with
  | case1 c p₁ p₂ hlt ih => exact (inside_store.mp (inside_store.mp (ih h)).2).2
  | case2 c p₁ p₂ hge => exact h

end Cells

/-! ### Strings -/

/-- From the first cell on the cells hold `s` and then the end mark, which is not in `s`. -/
structure Spells {α : Type*} (nul : α) (cell : ℕ → α) (s : List α) : Prop where
  chars : (List.range s.length).map cell = s
  ended : cell s.length = nul
  free : nul ∉ s

namespace Spells

variable {α : Type*} {nul : α} {cell : ℕ → α} {s t : List α}

theorem getElem {i : ℕ} (h : Spells nul cell s) (hi : i < s.length) : cell i = s[i] := by
  have hget := List.getElem_of_eq h.chars (i := i) (by simpa using hi)
  simpa using hget

theorem length_le (hs : Spells nul cell s) (ht : Spells nul cell t) : s.length ≤ t.length := by
  by_contra hlt
  have hmark := hs.getElem (i := t.length) (by omega)
  rw [ht.ended] at hmark
  exact hs.free (hmark ▸ List.getElem_mem _)

/-- The cells hold one string. -/
theorem unique (hs : Spells nul cell s) (ht : Spells nul cell t) : s = t := by
  have hlen := le_antisymm (hs.length_le ht) (ht.length_le hs)
  rw [← hs.chars, ← ht.chars, hlen]

/-- The string is what `n` cells begin with, when it ends in them. -/
theorem takeWhile_first [DecidableEq α] {c : Cells ℕ α} {n : ℕ} (h : Spells nul c.cell s) (hn : s.length < n) :
    (c.first n).takeWhile (· ≠ nul) = s := by
  obtain ⟨k, rfl⟩ : ∃ k, n = s.length + (k + 1) := ⟨n - s.length - 1, by omega⟩
  have hfree : ∀ x ∈ s, decide (x ≠ nul) = true := by
    intro x hx
    rw [decide_eq_true_eq]
    rintro rfl
    exact h.free hx
  rw [Cells.first, List.range_add, List.map_append, h.chars, List.takeWhile_append_of_pos hfree, List.range_succ_eq_map]
  simp [h.ended]

/-- A string in the first cells, and the mark behind it. -/
theorem of_first {c : Cells ℕ α} {n : ℕ} (h : c.first n = s) (hend : c.cell n = nul) (hfree : nul ∉ s) :
    Spells nul c.cell s := by
  have hn : s.length = n := by rw [← h, Cells.first_length]
  refine ⟨?_, ?_, hfree⟩
  · rw [hn]
    exact h
  · rw [hn]
    exact hend

/-- Elements stored from the first place on, and the mark behind them. -/
theorem storeAll (c : Cells ℕ α) (hfree : nul ∉ s) : Spells nul ((c.storeAll 0 s).store s.length nul).cell s := by
  have hall := c.first_storeAll 0 s
  rw [Nat.zero_add] at hall
  apply of_first (n := s.length)
  · rw [Cells.first_store_ge le_rfl, hall]
    rfl
  · exact Function.update_self ..
  · exact hfree

end Spells

end BareKernel.Links

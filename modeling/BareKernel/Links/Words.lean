import Mathlib.Data.List.Basic
import Mathlib.Data.Nat.Notation
import Mathlib.Tactic.TypeStar

/-! Cutting a list at a separator, and words that are too long into pieces. When no word is too
long, the pieces are the words. -/

namespace BareKernel.Links

variable {α : Type*} [DecidableEq α] {sep x : α} {n : ℕ} {w xs u p : List α}

/-- The words between separators. -/
noncomputable def words (sep : α) (xs : List α) : List (List α) := (xs.splitOn sep).filter (· ≠ [])

/-- The pieces of at most `n` elements; `w` is the beginning of the first one. -/
def piecesFrom (sep : α) (n : ℕ) : List α → List α → List (List α)
  | [], w => if w = [] then [] else [w]
  | x :: xs, w =>
    if x = sep then if w = [] then piecesFrom sep n xs [] else w :: piecesFrom sep n xs []
    else if w.length < n then piecesFrom sep n xs (w ++ [x])
    else w :: piecesFrom sep n xs [x]

def pieces (sep : α) (n : ℕ) (xs : List α) : List (List α) := piecesFrom sep n xs []

theorem pieces_nil : pieces sep n [] = [] := rfl

theorem pieces_sep (xs : List α) : pieces sep n (sep :: xs) = pieces sep n xs := by
  simp [pieces, piecesFrom]

/-- A piece goes as far as its word and its length allow. -/
def firstPiece (sep : α) (n : ℕ) (xs : List α) : List α := (xs.takeWhile (· ≠ sep)).take n

theorem firstPiece_cons (hx : x ≠ sep) : firstPiece sep (n + 1) (x :: xs) = x :: firstPiece sep n xs := by
  simp [firstPiece, hx]

theorem firstPiece_sep (sep : α) (n : ℕ) (xs : List α) : firstPiece sep n (sep :: xs) = [] := by simp [firstPiece]

theorem firstPiece_zero (sep : α) (xs : List α) : firstPiece sep 0 xs = [] := by simp [firstPiece]

theorem firstPiece_nil (sep : α) (n : ℕ) : firstPiece sep n [] = [] := by simp [firstPiece]

/-- A piece is what the list begins with. -/
theorem firstPiece_isPrefix (sep : α) (n : ℕ) (xs : List α) : firstPiece sep n xs <+: xs :=
  (List.take_prefix ..).trans (List.takeWhile_prefix _)

theorem firstPiece_length_le (sep : α) (n : ℕ) (xs : List α) : (firstPiece sep n xs).length ≤ n :=
  List.length_take_le ..

theorem piecesFrom_eq (hn : 0 < n) (hw : w ≠ []) (hlen : w.length ≤ n) : piecesFrom sep n xs w =
    (w ++ firstPiece sep (n - w.length) xs) :: pieces sep n (xs.drop (firstPiece sep (n - w.length) xs).length) := by
  induction xs generalizing w with
  | nil => simp [piecesFrom, hw, pieces, firstPiece]
  | cons x xs ih =>
    rw [piecesFrom]
    by_cases hx : x = sep
    · subst hx
      simp [hw, pieces, piecesFrom, firstPiece]
    · rw [if_neg hx]
      by_cases hroom : w.length < n
      · have hlong : (w ++ [x]).length = w.length + 1 := by simp
        obtain ⟨k, hk⟩ : ∃ k, n - w.length = k + 1 := ⟨n - w.length - 1, by omega⟩
        have hrest := ih (w := w ++ [x]) (by simp) (by omega)
        rw [show n - (w ++ [x]).length = k by omega] at hrest
        rw [if_pos hroom, hrest, hk, firstPiece_cons hx, List.append_assoc]
        rfl
      · rw [if_neg hroom, show n - w.length = 0 by omega]
        simp [pieces, piecesFrom, hx, hn, firstPiece]

/-- The first piece and the pieces behind it. -/
theorem pieces_cons (hn : 0 < n) (hx : x ≠ sep) (xs : List α) : pieces sep n (x :: xs) =
    firstPiece sep n (x :: xs) :: pieces sep n ((x :: xs).drop (firstPiece sep n (x :: xs)).length) := by
  obtain ⟨k, rfl⟩ : ∃ k, n = k + 1 := ⟨n - 1, by omega⟩
  have hrest : piecesFrom sep (k + 1) xs [x] = _ := piecesFrom_eq hn (List.cons_ne_nil x []) (by simp)
  have hstart : pieces sep (k + 1) (x :: xs) = piecesFrom sep (k + 1) xs [x] := by
    simp [pieces, piecesFrom, hx]
  rw [hstart, hrest, firstPiece_cons hx]
  rfl

/-! ### What the pieces are -/

theorem piecesFrom_flatten (sep : α) (n : ℕ) (xs w : List α) :
    (piecesFrom sep n xs w).flatten = w ++ xs.filter (· ≠ sep) := by
  induction xs generalizing w with
  | nil => by_cases hw : w = [] <;> simp [piecesFrom, hw]
  | cons x xs ih =>
    rw [piecesFrom]
    by_cases hx : x = sep
    · by_cases hw : w = [] <;> simp [hx, hw, ih]
    · by_cases hroom : w.length < n <;> simp [hx, hroom, ih]

/-- Nothing but the separators is lost. -/
theorem pieces_flatten (sep : α) (n : ℕ) (xs : List α) : (pieces sep n xs).flatten = xs.filter (· ≠ sep) :=
  piecesFrom_flatten sep n xs []

/-- A piece is not empty, not too long, and has no separator. -/
structure Piece (sep : α) (n : ℕ) (w : List α) : Prop where
  ne_nil : w ≠ []
  free : sep ∉ w
  le : w.length ≤ n

theorem piecesFrom_piece (hn : 0 < n) (hfree : sep ∉ w) (hlen : w.length ≤ n) (hp : p ∈ piecesFrom sep n xs w) :
    Piece sep n p := by
  induction xs generalizing w with
  | nil =>
    by_cases hw : w = []
    · simp [piecesFrom, hw] at hp
    · obtain rfl : p = w := by simpa [piecesFrom, hw] using hp
      exact ⟨hw, hfree, hlen⟩
  | cons x xs ih =>
    rw [piecesFrom] at hp
    have hnil := ih (w := []) List.not_mem_nil (Nat.zero_le n)
    by_cases hx : x = sep
    · rw [if_pos hx] at hp
      by_cases hw : w = []
      · rw [if_pos hw] at hp
        exact hnil hp
      · rw [if_neg hw] at hp
        rcases List.mem_cons.mp hp with rfl | hp
        · exact ⟨hw, hfree, hlen⟩
        · exact hnil hp
    · rw [if_neg hx] at hp
      by_cases hroom : w.length < n
      · rw [if_pos hroom] at hp
        refine ih ?_ ?_ hp
        · rw [List.mem_append, List.mem_singleton, not_or]
          exact ⟨hfree, Ne.symm hx⟩
        · rw [List.length_append, List.length_singleton]
          exact hroom
      · rw [if_neg hroom] at hp
        rcases List.mem_cons.mp hp with rfl | hp
        · exact ⟨List.ne_nil_of_length_pos (by omega), hfree, hlen⟩
        · exact ih (by simpa using Ne.symm hx) (by rw [List.length_singleton]; exact hn) hp

theorem pieces_piece (hn : 0 < n) (hp : p ∈ pieces sep n xs) : Piece sep n p :=
  piecesFrom_piece hn List.not_mem_nil (Nat.zero_le n) hp

/-! ### Short words -/

theorem splitOn_free (hfree : sep ∉ w) : w.splitOn sep = [w] := by
  rw [List.splitOn_eq_splitOnP]
  apply List.splitOnP_eq_singleton
  intro x hx
  rw [beq_eq_false_iff_ne]
  rintro rfl
  exact hfree hx

theorem splitOn_append_sep (hfree : sep ∉ w) (xs : List α) : (w ++ sep :: xs).splitOn sep = w :: xs.splitOn sep := by
  rw [List.splitOn_eq_splitOnP, List.splitOnP_append_cons _ _ (by simp), ← List.splitOn_eq_splitOnP,
    ← List.splitOn_eq_splitOnP, splitOn_free hfree]
  rfl

/-- The first word begins with what has no separator. -/
theorem splitOn_append (hfree : sep ∉ w) (xs : List α) : ∃ v ws, (w ++ xs).splitOn sep = (w ++ v) :: ws := by
  by_cases hsep : sep ∈ xs
  · obtain ⟨u, t, rfl, hu⟩ := List.eq_append_cons_of_mem hsep
    refine ⟨u, t.splitOn sep, ?_⟩
    rw [← List.append_assoc]
    apply splitOn_append_sep
    rw [List.mem_append, not_or]
    exact ⟨hfree, hu⟩
  · refine ⟨xs, [], splitOn_free ?_⟩
    rw [List.mem_append, not_or]
    exact ⟨hfree, hsep⟩

theorem words_free (hw : w ≠ []) (hfree : sep ∉ w) : words sep w = [w] := by
  simp [words, splitOn_free hfree, hw]

theorem words_append_sep (hfree : sep ∉ w) (xs : List α) :
    words sep (w ++ sep :: xs) = if w = [] then words sep xs else w :: words sep xs := by
  unfold words
  rw [splitOn_append_sep hfree]
  by_cases hw : w = [] <;> simp [hw]

/-- A beginning without a separator is no longer than the longest word. -/
theorem length_le_of_words (hw : w ≠ []) (hfree : sep ∉ w) (h : ∀ u ∈ words sep (w ++ xs), u.length ≤ n) :
    w.length ≤ n := by
  obtain ⟨v, ws, hsplit⟩ := splitOn_append hfree xs
  have hmem : w ++ v ∈ words sep (w ++ xs) := by
    unfold words
    rw [hsplit, List.mem_filter]
    simp [hw]
  have hle := h _ hmem
  rw [List.length_append] at hle
  omega

theorem piecesFrom_words (hfree : sep ∉ w) (hshort : ∀ u ∈ words sep (w ++ xs), u.length ≤ n) :
    piecesFrom sep n xs w = words sep (w ++ xs) := by
  induction xs generalizing w with
  | nil =>
    rw [List.append_nil]
    by_cases hw : w = []
    · simp [piecesFrom, hw, words]
    · rw [words_free hw hfree, piecesFrom, if_neg hw]
  | cons x xs ih =>
    rw [piecesFrom]
    by_cases hx : x = sep
    · subst hx
      rw [words_append_sep hfree] at hshort ⊢
      have hrest : ∀ u ∈ words x xs, u.length ≤ n := by
        intro u hu
        apply hshort
        split
        · exact hu
        · exact List.mem_cons_of_mem _ hu
      rw [if_pos rfl, ih (w := []) List.not_mem_nil hrest]
      rfl
    · have hfree' : sep ∉ w ++ [x] := by
        rw [List.mem_append, List.mem_singleton, not_or]
        exact ⟨hfree, Ne.symm hx⟩
      have happ : w ++ x :: xs = w ++ [x] ++ xs := List.append_cons w x xs
      rw [happ] at hshort ⊢
      have hroom := length_le_of_words (by simp) hfree' hshort
      rw [List.length_append, List.length_singleton] at hroom
      rw [if_neg hx, if_pos (by omega)]
      exact ih hfree' hshort

/-- When no word is too long, the pieces are the words. -/
theorem pieces_words (hshort : ∀ u ∈ words sep xs, u.length ≤ n) : pieces sep n xs = words sep xs :=
  piecesFrom_words List.not_mem_nil hshort

end BareKernel.Links

import Mathlib.Algebra.BigOperators.Group.Finset.Piecewise
import Mathlib.Data.Finset.Prod
import Mathlib.Logic.Function.Basic

/-! The entries of a table of rows that have a property, counted over a finite set of
rows. Entries are set one at a time; rows come and go. -/

namespace BareKernel.Links

open Function (update)

variable {ι α : Type*} [DecidableEq ι] {f g : ι → ℕ → α} {S : Finset ι} {n j : ℕ} {p : ι} {v : α}
  {P Q : α → Prop} [DecidablePred P] [DecidablePred Q]

/-- The number of the first `n` entries of the rows in `S` that have the property. -/
def entryCount (f : ι → ℕ → α) (S : Finset ι) (n : ℕ) (P : α → Prop) [DecidablePred P] : ℕ :=
  ((S ×ˢ Finset.range n).filter fun x => P (f x.1 x.2)).card

omit [DecidableEq ι] in
theorem entryCount_pos : 0 < entryCount f S n P ↔ ∃ p ∈ S, ∃ j < n, P (f p j) := by
  unfold entryCount
  rw [Finset.card_pos]
  constructor
  · rintro ⟨⟨p, j⟩, hx⟩
    rw [Finset.mem_filter, Finset.mem_product, Finset.mem_range] at hx
    exact ⟨p, hx.1.1, j, hx.1.2, hx.2⟩
  · rintro ⟨p, hp, j, hj, hP⟩
    refine ⟨(p, j), ?_⟩
    rw [Finset.mem_filter, Finset.mem_product, Finset.mem_range]
    exact ⟨⟨hp, hj⟩, hP⟩

omit [DecidableEq ι] in
theorem entryCount_eq_zero : entryCount f S n P = 0 ↔ ∀ p ∈ S, ∀ j < n, ¬P (f p j) := by
  rw [← Nat.le_zero, ← not_lt, entryCount_pos]
  push Not
  rfl

omit [DecidableEq ι] in
theorem entryCount_congr (h : ∀ p ∈ S, ∀ j < n, P (f p j) ↔ Q (g p j)) :
    entryCount f S n P = entryCount g S n Q := by
  unfold entryCount
  congr 1
  apply Finset.filter_congr
  rintro ⟨p, j⟩ hx
  rw [Finset.mem_product, Finset.mem_range] at hx
  exact h p hx.1 j hx.2

/-- The count of one row and that of the others. -/
theorem entryCount_erase (hp : p ∈ S) :
    entryCount f S n P = entryCount f (S.erase p) n P + entryCount f {p} n P := by
  unfold entryCount
  have hS : S = (S.erase p).disjUnion {p} (by simp) := by
    rw [Finset.disjUnion_eq_union, Finset.union_comm, ← Finset.insert_eq, Finset.insert_erase hp]
  conv_lhs => rw [hS]
  rw [Finset.disjUnion_product, Finset.filter_disjUnion, Finset.card_disjUnion]

/-- A row without such entries does not count. -/
theorem entryCount_insert (hrow : ∀ j < n, ¬P (f p j)) : entryCount f (insert p S) n P = entryCount f S n P := by
  have hzero : entryCount f {p} n P = 0 := by
    rw [entryCount_eq_zero]
    intro q hq j hj
    rw [Finset.mem_singleton.mp hq]
    exact hrow j hj
  by_cases hp : p ∈ S
  · rw [Finset.insert_eq_of_mem hp]
  · rw [entryCount_erase (Finset.mem_insert_self p S), Finset.erase_insert hp, hzero, Nat.add_zero]

/-- Setting an entry counts the new one in and the old one out. -/
theorem entryCount_set (hp : p ∈ S) (hj : j < n) :
    entryCount (update f p (update (f p) j v)) S n P + (if P (f p j) then 1 else 0) =
      entryCount f S n P + if P v then 1 else 0 := by
  have hx : (p, j) ∈ S ×ˢ Finset.range n := Finset.mem_product.mpr ⟨hp, Finset.mem_range.mpr hj⟩
  unfold entryCount
  rw [Finset.card_filter, Finset.card_filter, ← Finset.add_sum_erase _ _ hx, ← Finset.add_sum_erase _ _ hx]
  have hself : update f p (update (f p) j v) p j = v := by rw [Function.update_self, Function.update_self]
  have hrest : ∀ x ∈ (S ×ˢ Finset.range n).erase (p, j), update f p (update (f p) j v) x.1 x.2 = f x.1 x.2 := by
    rintro ⟨q, i⟩ hq
    have hne := Finset.ne_of_mem_erase hq
    by_cases hqp : q = p
    · subst hqp
      have hij : i ≠ j := fun he => hne (by rw [he])
      rw [Function.update_self, Function.update_of_ne hij]
    · rw [Function.update_of_ne hqp]
  rw [Finset.sum_congr rfl fun x hx => by rw [hrest x hx], hself]
  dsimp only
  omega

end BareKernel.Links

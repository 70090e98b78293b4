import Mathlib.Algebra.BigOperators.Group.Finset.Basic
import Mathlib.Algebra.Order.BigOperators.Group.Finset
import Mathlib.Order.Interval.Finset.Nat

/-! Disjoint intervals inside a region. Their lengths add up to the length of the
region exactly when they cover it. -/

namespace BareKernel.Links

variable {S : Finset ℕ} {len : ℕ → ℕ} {lo hi : ℕ}

/-- The intervals `[b, b + len b)` for `b` in `S`. -/
def intervals (S : Finset ℕ) (len : ℕ → ℕ) : Finset ℕ := S.biUnion fun b => Finset.Ico b (b + len b)

theorem mem_intervals {x : ℕ} : x ∈ intervals S len ↔ ∃ b ∈ S, b ≤ x ∧ x < b + len b := by
  simp [intervals]

theorem card_intervals (hdisj : ∀ a ∈ S, ∀ b ∈ S, a ≠ b → a + len a ≤ b ∨ b + len b ≤ a) :
    (intervals S len).card = ∑ b ∈ S, len b := by
  rw [intervals, Finset.card_biUnion]
  · apply Finset.sum_congr rfl
    intro b _
    rw [Nat.card_Ico]
    omega
  · intro a ha b hb hab
    have hd := hdisj a ha b hb hab
    rw [Function.onFun, Finset.disjoint_left]
    intro x hx hx'
    rw [Finset.mem_Ico] at hx hx'
    omega

theorem sum_length_eq_iff (hin : ∀ b ∈ S, lo ≤ b ∧ b + len b ≤ hi)
    (hdisj : ∀ a ∈ S, ∀ b ∈ S, a ≠ b → a + len a ≤ b ∨ b + len b ≤ a) :
    ∑ b ∈ S, len b = hi - lo ↔ ∀ x, lo ≤ x → x < hi → ∃ b ∈ S, b ≤ x ∧ x < b + len b := by
  have hsub : intervals S len ⊆ Finset.Ico lo hi := by
    intro x hx
    obtain ⟨b, hb, hbx, hxb⟩ := mem_intervals.mp hx
    have hb' := hin b hb
    rw [Finset.mem_Ico]
    omega
  rw [← card_intervals hdisj, ← Nat.card_Ico]
  constructor
  · intro hcard x hlo hhi
    rw [← mem_intervals, Finset.eq_of_subset_of_card_le hsub hcard.ge]
    exact Finset.mem_Ico.mpr ⟨hlo, hhi⟩
  · intro hcover
    congr 1
    apply hsub.antisymm
    intro x hx
    rw [Finset.mem_Ico] at hx
    exact mem_intervals.mpr (hcover x hx.1 hx.2)

end BareKernel.Links

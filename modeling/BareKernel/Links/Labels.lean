import Mathlib.Data.List.Basic
import Mathlib.Logic.Function.Basic

/-! Labels in blocks of memory. Every member of a set has a block of its own among those
in use, and the text in it fits the member. A member gets a new label by getting a block
that is not in use; its old block is forgotten or erased. -/

namespace BareKernel.Links

open Function (update)

variable {ι β τ : Type*} {S S' : ι → Prop} {block : ι → β} {live : List β} {text : β → τ} {fits fits' : ι → τ → Prop}
  {p q : ι} {b : β} {t : τ}

structure Labelled (S : ι → Prop) (block : ι → β) (live : List β) (text : β → τ) (fits : ι → τ → Prop) : Prop where
  live : ∀ p, S p → block p ∈ live
  inj : ∀ p q, S p → S q → block p = block q → p = q
  fits : ∀ p, S p → fits p (text (block p))

namespace Labelled

theorem mono (h : Labelled S block live text fits) (hS : ∀ p, S' p → S p) : Labelled S' block live text fits :=
  ⟨fun p hp => h.live p (hS p hp), fun p q hp hq => h.inj p q (hS p hp) (hS q hq), fun p hp => h.fits p (hS p hp)⟩

variable [DecidableEq ι] [DecidableEq β]

/-- A member, old or new, gets a label in a block that is not in use. -/
theorem write (h : Labelled S block live text fits) (hb : b ∉ live) (hS : ∀ q, S' q → q ≠ p → S q)
    (hother : ∀ q s, q ≠ p → fits q s → fits' q s) (hp : fits' p t) :
    Labelled S' (update block p b) (b :: live) (update text b t) fits' := by
  have hold : ∀ q, S' q → q ≠ p → update block p b q = block q ∧ block q ∈ live ∧ block q ≠ b := by
    intro q hq hqp
    have hin := h.live q (hS q hq hqp)
    exact ⟨Function.update_of_ne hqp .., hin, fun he => hb (he ▸ hin)⟩
  constructor
  · intro q hq
    by_cases hqp : q = p
    · subst hqp
      rw [Function.update_self]
      exact List.mem_cons_self
    · obtain ⟨hblock, hin, -⟩ := hold q hq hqp
      rw [hblock]
      exact List.mem_cons_of_mem b hin
  · intro q s hq hs hqs
    by_cases hqp : q = p <;> by_cases hsp : s = p
    · rw [hqp, hsp]
    · obtain ⟨hblock, -, hne⟩ := hold s hs hsp
      rw [hqp, Function.update_self, hblock] at hqs
      exact absurd hqs.symm hne
    · obtain ⟨hblock, -, hne⟩ := hold q hq hqp
      rw [hsp, Function.update_self, hblock] at hqs
      exact absurd hqs hne
    · rw [(hold q hq hqp).1, (hold s hs hsp).1] at hqs
      exact h.inj q s (hS q hq hqp) (hS s hs hsp) hqs
  · intro q hq
    by_cases hqp : q = p
    · subst hqp
      rw [Function.update_self, Function.update_self]
      exact hp
    · obtain ⟨hblock, -, hne⟩ := hold q hq hqp
      rw [hblock, Function.update_of_ne hne]
      exact hother q _ hqp (h.fits q (hS q hq hqp))

omit [DecidableEq ι] in
/-- A member leaves, and its block is erased. -/
theorem drop (h : Labelled S block live text fits) (hp : S p) (hS : ∀ q, S' q → S q ∧ q ≠ p) :
    Labelled S' block (live.erase (block p)) text fits := by
  refine ⟨fun q hq => ?_, (h.mono fun q hq => (hS q hq).1).inj, fun q hq => h.fits q (hS q hq).1⟩
  obtain ⟨hq, hqp⟩ := hS q hq
  have hne : block q ≠ block p := fun he => hqp (h.inj q p hq hp he)
  exact (List.mem_erase_of_ne hne).mpr (h.live q hq)

end Labelled

end BareKernel.Links

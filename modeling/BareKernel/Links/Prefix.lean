import Mathlib.Data.Nat.SuccPred
import Mathlib.Data.Set.Card
import Mathlib.Order.Interval.Set.Nat

/-! A set kept in the first entries of an array, each element once. It grows at the
end, and the last entry fills the gap that a removed one leaves. -/

namespace BareKernel.Links

open Function (update)

variable {α : Type*} {f : ℕ → α} {n m j : ℕ} {S : Set α} {a z : α}

theorem bijOn_push (h : Set.BijOn f (Set.Iio n) S) (ha : a ∉ S) :
    Set.BijOn (update f n a) (Set.Iio (n + 1)) (insert a S) := by
  have hold : Set.BijOn (update f n a) (Set.Iio n) S := by
    refine h.congr fun i hi => (Function.update_of_ne ?_ ..).symm
    exact (Set.mem_Iio.mp hi).ne
  have hself : update f n a n = a := Function.update_self ..
  have hmore := hold.insert (a := n) (by rwa [hself])
  rwa [hself, ← Order.Iio_succ_eq_insert] at hmore

theorem bijOn_swapRemove (h : Set.BijOn f (Set.Iio n) S) (hj : j < n) :
    Set.BijOn (update (update f j (f (n - 1))) (n - 1) z) (Set.Iio (n - 1)) (S \ {f j}) := by
  have hlast : n - 1 < n := by omega
  have hswap := h.comp (Equiv.bijOn_swap (Set.mem_Iio.mpr hj) (Set.mem_Iio.mpr hlast))
  have hrest := hswap.sdiff_singleton (Set.mem_Iio.mpr hlast)
  rw [Function.comp_apply, Equiv.swap_apply_right] at hrest
  have hbelow : Set.Iio n \ {n - 1} = Set.Iio (n - 1) := by
    ext i
    simp only [Set.mem_sdiff, Set.mem_Iio, Set.mem_singleton_iff]
    omega
  rw [hbelow] at hrest
  refine hrest.congr fun i hi => ?_
  have hi' : i ≠ n - 1 := (Set.mem_Iio.mp hi).ne
  rw [Function.comp_apply, Function.update_of_ne hi']
  by_cases hij : i = j
  · rw [hij, Equiv.swap_apply_left, Function.update_self]
  · rw [Equiv.swap_apply_of_ne_of_ne hij hi', Function.update_of_ne hij]

/-- A set has one number of entries. -/
theorem bijOn_length {g : ℕ → α} (h : Set.BijOn f (Set.Iio n) S) (h' : Set.BijOn g (Set.Iio m) S) : n = m := by
  have hn := h.ncard_eq
  have hm := h'.ncard_eq
  rw [Set.ncard_Iio_nat] at hn hm
  omega

end BareKernel.Links

import Mathlib.Data.List.Basic
import Mathlib.Data.Nat.Notation
import Mathlib.Logic.Function.Basic
import Mathlib.Tactic.TypeStar

/-! Queues in a circular buffer of `n` slots: the entries lie one behind the other
from the head on, and the first slot follows the last one. -/

namespace BareKernel.Links

open Function (update)

variable {α : Type*} {buf : ℕ → α} {n head count : ℕ} {x : α}

/-- The entries of the queue, from the head on. -/
def entries (buf : ℕ → α) (n : ℕ) : ℕ → ℕ → List α
  | _, 0 => []
  | head, count + 1 => buf head :: entries buf n ((head + 1) % n) count

theorem entries_length : (entries buf n head count).length = count := by
  induction count generalizing head with
  | zero => rfl
  | succ count ih => simp [entries, ih]

/-- The slot behind the entries is not the head. -/
theorem tail_ne_head (hh : head < n) (h0 : 0 < count) (hc : count < n) : (head + count) % n ≠ head := by
  rcases Nat.lt_or_ge (head + count) n with hlt | hge
  · rw [Nat.mod_eq_of_lt hlt]
    omega
  · rw [Nat.mod_eq_sub_mod hge, Nat.mod_eq_of_lt (by omega)]
    omega

/-- A new entry behind the last one. -/
theorem entries_push (hh : head < n) (hc : count < n) :
    entries (update buf ((head + count) % n) x) n head (count + 1) = entries buf n head count ++ [x] := by
  induction count generalizing head with
  | zero =>
    rw [Nat.add_zero, Nat.mod_eq_of_lt hh]
    simp [entries]
  | succ count ih =>
    have hne := tail_ne_head hh (Nat.succ_pos count) hc
    have hslot : (head + (count + 1)) % n = ((head + 1) % n + count) % n := by
      rw [Nat.mod_add_mod]
      congr 1
      omega
    have hrest := ih (Nat.mod_lt (head + 1) (Nat.zero_lt_of_lt hh)) (Nat.lt_of_succ_lt hc)
    rw [entries, Function.update_of_ne (Ne.symm hne), hslot, hrest]
    rfl

/-- What has been stored behind the entries is what has been taken and the entries, of
which there are `count`; `wr` is the slot behind the last one. -/
structure Window (buf : ℕ → α) (n head wr count : ℕ) (stored taken : List α) : Prop where
  low : head < n
  tail : wr = (head + count) % n
  room : count ≤ n
  bytes : stored = taken ++ entries buf n head count

variable {wr : ℕ} {stored taken : List α}

theorem Window.start (hn : 0 < n) : Window buf n 0 0 0 [] [] := ⟨hn, rfl, Nat.zero_le n, rfl⟩

theorem Window.store (h : Window buf n head wr count stored taken) (hc : count < n) (x : α) :
    Window (update buf wr x) n head ((wr + 1) % n) (count + 1) (stored ++ [x]) taken := by
  refine ⟨h.low, ?_, hc, ?_⟩
  · rw [h.tail, Nat.mod_add_mod]
    rfl
  · rw [h.tail, entries_push h.low hc, h.bytes, List.append_assoc]

theorem Window.take (h : Window buf n head wr (count + 1) stored taken) :
    Window buf n ((head + 1) % n) wr count stored (taken ++ [buf head]) := by
  refine ⟨Nat.mod_lt _ (Nat.zero_lt_of_lt h.low), ?_, Nat.le_of_succ_le h.room, ?_⟩
  · rw [h.tail, Nat.mod_add_mod]
    congr 1
    omega
  · rw [h.bytes, List.append_assoc]
    rfl

theorem Window.isPrefix (h : Window buf n head wr count stored taken) : taken <+: stored :=
  ⟨_, h.bytes.symm⟩

theorem Window.length (h : Window buf n head wr count stored taken) : stored.length = taken.length + count := by
  rw [h.bytes, List.length_append, entries_length]

end BareKernel.Links

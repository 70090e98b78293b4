import BareKernel.Links.Bytes

/-! Filling and copying memory. `memset` stores from the last byte down; `memcpy`
always goes forwards, by words of four bytes where both addresses and the length
allow it and by bytes elsewhere. The two ways of copying agree on all addresses,
also where source and destination overlap. -/

namespace BareKernel.Lib

open Links Function

variable {m : Bytes} {d s n w i : ℕ}

/-- The byte that `memset` stores. -/
def chr (c : Int32) : UInt8 := UInt8.ofInt c.toInt

/-- `while(length--) dst[length] = chr` -/
def memset (m : Bytes) (destination : ℕ) (c : Int32) : ℕ → Bytes
  | 0 => m
  | length + 1 => memset (update m (destination + length) (chr c)) destination c length

/-- `for (i = 0; i < n; i++) d[i] = s[i]`, for elements of `w` bytes. -/
def copyElements (w : ℕ) (m : Bytes) (d s n : ℕ) : Bytes :=
  (List.range n).foldl (fun m i => m.place (d + w * i) (m.read (s + w * i) w)) m

/-- By words of type `uint32_t` when both pointers and the length are aligned. -/
def memcpy (m : Bytes) (destination source length : ℕ) : Bytes :=
  if destination % 4 = 0 ∧ source % 4 = 0 ∧ length % 4 = 0 then copyElements 4 m destination source (length / 4)
  else copyElements 1 m destination source length

theorem memset_eq (m : Bytes) (d : ℕ) (c : Int32) (n : ℕ) :
    memset m d c n = m.place d (List.replicate n (chr c)) := by
  induction n generalizing m with
  | zero => simp [memset]
  | succ n ih =>
    rw [memset, ih, ← Bytes.place_singleton, Bytes.place_comm (Or.inr (by simp)), List.replicate_succ',
      Bytes.place_append, List.length_replicate]

theorem copyElements_succ (w : ℕ) (m : Bytes) (d s n : ℕ) :
    copyElements w m d s (n + 1) =
      (copyElements w m d s n).place (d + w * n) ((copyElements w m d s n).read (s + w * n) w) := by
  rw [copyElements, List.range_succ, List.foldl_append]
  rfl

theorem copyElements_add (w : ℕ) (m : Bytes) (d s n k : ℕ) :
    copyElements w m d s (n + k) = copyElements w (copyElements w m d s n) (d + w * n) (s + w * n) k := by
  induction k with
  | zero => rfl
  | succ k ih =>
    rw [← Nat.add_assoc, copyElements_succ, copyElements_succ, ih, Nat.mul_add, Nat.add_assoc, Nat.add_assoc]

/-- Forwards, the source is read before it is written over, unless the destination
begins inside it. -/
theorem copyElements_one (h : d ≤ s ∨ s + n ≤ d) : copyElements 1 m d s n = m.place d (m.read s n) := by
  induction n with
  | zero => simp [copyElements, Bytes.read]
  | succ n ih =>
    rw [copyElements_succ, ih (by omega), Nat.one_mul,
      Bytes.read_place_of_disjoint (by rw [Bytes.read_length]; omega), Bytes.read_append, Bytes.place_append,
      Bytes.read_length]

/-- Elements of `w` bytes are copied like their bytes when source and destination
differ by whole elements: two elements are then the same or disjoint. -/
theorem copyElements_width (h : d % w = s % w) (m : Bytes) (n : ℕ) :
    copyElements w m d s n = copyElements 1 m d s (w * n) := by
  induction n with
  | zero => rfl
  | succ n ih =>
    have hapart : d + w * n ≤ s + w * n ∨ s + w * n + w ≤ d + w * n := by
      by_contra hno
      have hlt : d - s < w := by omega
      have hsame : (d - s) % w = 0 := Nat.sub_mod_eq_zero_of_mod_eq h
      rw [Nat.mod_eq_of_lt hlt] at hsame
      omega
    rw [copyElements_succ, ih, Nat.mul_succ, copyElements_add, Nat.one_mul, copyElements_one hapart]

theorem memcpy_bytes (m : Bytes) (d s n : ℕ) : memcpy m d s n = copyElements 1 m d s n := by
  unfold memcpy
  split
  case isTrue h =>
    rw [copyElements_width (by omega), Nat.mul_div_cancel' (Nat.dvd_of_mod_eq_zero h.2.2)]
  case isFalse => rfl

/-- Where the destination does not begin inside the source, `memcpy` copies. -/
theorem memcpy_eq (h : d ≤ s ∨ s + n ≤ d) : memcpy m d s n = m.place d (m.read s n) := by
  rw [memcpy_bytes, copyElements_one h]

theorem copyElements_out (h : i < d ∨ d + n ≤ i) : copyElements 1 m d s n i = m i := by
  induction n with
  | zero => rfl
  | succ n ih => rw [copyElements_succ, Bytes.place_out (by rw [Bytes.read_length]; omega), ih (by omega)]

/-- The bytes that lie before a destination inside the source come again and again. -/
theorem copyElements_repeats (hover : s < d) (hi : i < n) :
    copyElements 1 m d s n (d + i) = m (s + i % (d - s)) := by
  induction n generalizing i with
  | zero => exact absurd hi (Nat.not_lt_zero i)
  | succ n ih =>
    rw [copyElements_succ, Nat.one_mul]
    rcases Nat.lt_succ_iff_lt_or_eq.mp hi with hlt | rfl
    · rw [Bytes.place_out (by omega), ih hlt]
    · have hlast : (copyElements 1 m d s i).place (d + i) ((copyElements 1 m d s i).read (s + i) 1) (d + i) =
          copyElements 1 m d s i (s + i) := by simp [Bytes.read, Bytes.place_singleton]
      rw [hlast]
      by_cases hbefore : i < d - s
      · rw [copyElements_out (by omega), Nat.mod_eq_of_lt hbefore]
      · -- the byte read has been written `d - s` rounds before
        have hback : s + i = d + (i - (d - s)) := by omega
        rw [hback, ih (by omega), ← Nat.mod_eq_sub_mod (by omega)]

/-- What `memcpy` leaves at every address, on both paths: outside the destination the
old byte; in it a copy of the source, except that a destination that begins inside
the source repeats the bytes before it. -/
theorem memcpy_apply (m : Bytes) (d s n i : ℕ) :
    memcpy m d s n i =
      if i < d ∨ d + n ≤ i then m i
      else if s < d then m (s + (i - d) % (d - s))
      else m (s + (i - d)) := by
  rw [memcpy_bytes]
  split
  case isTrue h => exact copyElements_out h
  case isFalse h =>
    obtain ⟨k, rfl⟩ : ∃ k, i = d + k := Nat.exists_eq_add_of_le (by omega)
    have hk : k < n := by omega
    rw [Nat.add_sub_cancel_left]
    split
    case isTrue hover => exact copyElements_repeats hover hk
    case isFalse hover =>
      have hlen : k < (m.read s n).length := by rwa [Bytes.read_length]
      rw [copyElements_one (Or.inl (by omega)), Bytes.place_in hlen]
      simp [Bytes.read]

end BareKernel.Lib

import BareKernel.Buddy.Laws

/-! Merging is complete. A free puts a block on a list only when its buddy is not
there, and the halves a malloc puts on the lists have a buddy that is cut further or
handed out. The blocks that begin in the first `2 ^ 18` bytes cover them, so that
after every pointer is given back only one block is left. -/

namespace BareKernel.Buddy

open Function (update)
open Links

variable {s t : BuddyRun} {call : BuddyCall} {ok : BuddyRun → BuddyCall → Prop} {start size n : ℕ}
  {g : Heap} {place : ℕ → Place} {F : ℕ → List ℕ} {b k : ℕ}

/-- The blocks cover the largest order from the start of the region on. -/
def TopCovered (g : Heap) (place : ℕ → Place) : Prop :=
  ∀ x, g.memoryStart ≤ x → x < g.memoryStart + blockBytes maxOrder → Covered g place x

/-- The buddy of a free block begins within the largest order too. -/
theorem Coalesced.buddy_within (h : Coalesced g place F) (hB : Blocks g place F) (hb : place b = .free k)
    (hk : k < maxOrder) :
    g.memoryStart ≤ b ^^^ blockBytes k ∧ b ^^^ blockBytes k < g.memoryStart + blockBytes maxOrder := by
  have hlow := (hB.inside b (by simp [hb])).1
  have hhigh := h.below b (by simp [hb])
  have hstart := (blockBytes_dvd (show k + 1 ≤ maxOrder from hk)).trans h.aligned
  have hend := (blockBytes_dvd (show k + 1 ≤ maxOrder from hk)).trans (Nat.dvd_add h.aligned dvd_rfl)
  have hsucc := blockBytes_succ k
  have hpos := headerSize_lt k
  rcases xor_blockBytes (hB.free_sized b k hb).aligned with ⟨heq, hal⟩ | ⟨heq, hal⟩
  · have hle := Nat.le_of_lt_add_of_dvd (Nat.add_lt_add_right hhigh (blockBytes (k + 1)))
      (Nat.dvd_add hal dvd_rfl) hend
    omega
  · have hle := Nat.le_of_lt_add_of_dvd (b := b ^^^ blockBytes k) (n := blockBytes (k + 1))
      (by omega) hstart hal
    omega

/-- A block of a higher order that covers the buddy of `b` covers `b` as well. -/
theorem Coalesced.order_le (h : Coalesced g place F) (hB : Blocks g place F) {d j : ℕ}
    (hb : place b = .free k) (hd : place d = .free j) (hdx : d ≤ b ^^^ blockBytes k)
    (hxd : b ^^^ blockBytes k < d + headerSize + g.size d) : j ≤ k := by
  by_contra hlt
  rw [not_le] at hlt
  have hdb : d ≠ b := by
    rintro rfl
    rw [hb] at hd
    obtain rfl : k = j := by simpa using hd
    exact absurd hlt (lt_irrefl k)
  have hsized := hB.free_sized d j hd
  have hdvd : blockBytes (k + 1) ∣ blockBytes j := Nat.mul_dvd_mul_right (Nat.pow_dvd_pow 2 hlt) minBlockSize
  have hsucc := blockBytes_succ k
  have hpos := headerSize_lt k
  have hin : d < b ∧ b < d + headerSize + g.size d := by
    rcases xor_blockBytes (hB.free_sized b k hb).aligned with ⟨heq, hal⟩ | ⟨heq, hal⟩
    · have hle := Nat.le_of_lt_add_of_dvd (by omega) (hdvd.trans hsized.aligned) hal
      omega
    · refine ⟨by omega, ?_⟩
      rcases Nat.eq_or_lt_of_le hsized.le with rfl | hj
      · have hlow := (hB.inside d (by simp [hd])).1
        have hhigh := h.below b (by simp [hb])
        have hleast := hsized.least
        omega
      · have hext := hsized.eq hj
        have hle := Nat.le_of_lt_add_of_dvd (a := (b ^^^ blockBytes k) + blockBytes (k + 1))
          (b := d + blockBytes j) (n := blockBytes (k + 1)) (by omega) (Nat.dvd_add hal dvd_rfl)
          (Nat.dvd_add (hdvd.trans hsized.aligned) hdvd)
        omega
  have hout := hB.outside_of_inner (by simp [hd]) hin.1 hin.2
  rw [hb] at hout
  cases hout

/-- When nothing is live, every block has the top order. -/
theorem Coalesced.top (h : Coalesced g place F) (hB : Blocks g place F) (htop : TopCovered g place)
    (hnone : ∀ b, place b ≠ .live) (hb : place b = .free k) : k = maxOrder := by
  induction k using Nat.strong_induction_on generalizing b with
  | _ k ih =>
    have hsized := hB.free_sized b k hb
    by_contra hne
    have hk : k < maxOrder := lt_of_le_of_ne hsized.le hne
    obtain ⟨hlo, hhi⟩ := h.buddy_within hB hb hk
    obtain ⟨d, hd, hdx, hxd⟩ := htop _ hlo hhi
    cases hp : place d with
    | outside => exact hd hp
    | live => exact hnone d hp
    | free j =>
      have hjk := h.order_le hB hb hp hdx hxd
      rcases Nat.eq_or_lt_of_le hjk with rfl | hlt
      · -- then `d` is the buddy itself
        have hext := (hB.free_sized d j hp).eq hk
        have hbuddy : blockBytes j ∣ b ^^^ blockBytes j := by
          rcases xor_blockBytes hsized.aligned with ⟨heq, -⟩ | ⟨-, hal⟩
          · rw [heq]
            exact Nat.dvd_add hsized.aligned dvd_rfl
          · exact (blockBytes_succ j ▸ Nat.dvd_mul_left ..).trans hal
        have hle := Nat.le_of_lt_add_of_dvd (by omega) hbuddy (hB.free_sized d j hp).aligned
        obtain rfl : d = b ^^^ blockBytes j := le_antisymm hdx hle
        exact h.apart j hk b ((hB.mem j hk.le b).mpr hb) ((hB.mem j hk.le _).mpr hp)
      · have hjmax := ih j hlt hp
        omega

/-- The kernel's region after the first pointer is given back. -/
def oneFree : BuddyRun :=
  ⟨((buddyFree oneMalloc.heap (kernelStart + headerSize)).map Prod.snd).getD oneMalloc.heap, []⟩

end BareKernel.Buddy

import BareKernel.Links.Bytes

/-! Pixels in a memory of bytes, row by row, with a color in the first three bytes of each. A
picture is painted pixel by pixel; where all that is painted on a pixel has one color, the pixel
has it afterwards. -/

namespace BareKernel.Links

/-- Where the pixels lie: `depth` bytes each, and `pitch` bytes from one row to the next. -/
structure Raster where
  base : ℕ
  depth : ℕ
  pitch : ℕ
  width : ℕ
  colored : 3 ≤ depth
  wide : width * depth ≤ pitch

/-- A color and the place where it is painted. -/
abbrev Dot : Type := ℕ × ℕ × ℕ

namespace Raster

variable {r : Raster} {m : Bytes} {ps : List Dot} {x y x' y' c : ℕ}

def offset (r : Raster) (x y : ℕ) : ℕ := r.base + (x * r.depth + y * r.pitch)

def plot (r : Raster) (m : Bytes) (p : Dot) : Bytes := m.place (r.offset p.2.1 p.2.2) (Bytes.digits 3 p.1)

def pixel (r : Raster) (m : Bytes) (x y : ℕ) : ℕ := Bytes.value (m.read (r.offset x y) 3)

def paint (r : Raster) (m : Bytes) (ps : List Dot) : Bytes := ps.foldl r.plot m

/-- A row ends before the next one begins. -/
theorem offset_below (hx : x < r.width) (hy : y < y') : r.offset x y + 3 ≤ r.offset x' y' := by
  have hrow : x * r.depth + 3 ≤ r.pitch := by
    have hnext : (x + 1) * r.depth ≤ r.width * r.depth := Nat.mul_le_mul_right _ hx
    have := r.colored
    have := r.wide
    rw [Nat.succ_mul] at hnext
    omega
  have hdown : (y + 1) * r.pitch ≤ y' * r.pitch := Nat.mul_le_mul_right _ hy
  rw [Nat.succ_mul] at hdown
  unfold offset
  omega

theorem offset_beside (hx : x < x') : r.offset x y + 3 ≤ r.offset x' y := by
  have hnext : (x + 1) * r.depth ≤ x' * r.depth := Nat.mul_le_mul_right _ hx
  have := r.colored
  rw [Nat.succ_mul] at hnext
  unfold offset
  omega

theorem offset_apart (hx : x < r.width) (hx' : x' < r.width) (hne : (x', y') ≠ (x, y)) :
    r.offset x' y' + 3 ≤ r.offset x y ∨ r.offset x y + 3 ≤ r.offset x' y' := by
  rcases Nat.lt_trichotomy y y' with hy | rfl | hy
  · exact Or.inr (offset_below hx hy)
  · rcases Nat.lt_trichotomy x x' with hlt | rfl | hlt
    · exact Or.inr (offset_beside hlt)
    · exact absurd rfl hne
    · exact Or.inl (offset_beside hlt)
  · exact Or.inl (offset_below hx' hy)

theorem pixel_plot (hx : x < r.width) (hx' : x' < r.width) :
    r.pixel (r.plot m (c, x, y)) x' y' = if (x', y') = (x, y) then c % 256 ^ 3 else r.pixel m x' y' := by
  unfold pixel plot
  split
  · rename_i he
    obtain ⟨rfl, rfl⟩ := Prod.mk.inj he
    have hread := Bytes.read_place m (r.offset x' y') (Bytes.digits 3 c)
    rw [Bytes.digits_length] at hread
    rw [hread, Bytes.value_digits]
  · rename_i hne
    rw [Bytes.read_place_of_disjoint]
    rw [Bytes.digits_length]
    exact offset_apart hx hx' hne

/-- Where nothing is painted, nothing changes. -/
theorem pixel_paint_of_notMem (hps : ∀ p ∈ ps, p.2.1 < r.width) (hx : x < r.width)
    (hnot : ∀ p ∈ ps, (x, y) ≠ p.2) : r.pixel (r.paint m ps) x y = r.pixel m x y := by
  induction ps generalizing m with
  | nil => rfl
  | cons p ps ih =>
    obtain ⟨hp, hps⟩ := List.forall_mem_cons.mp hps
    obtain ⟨hne, hnot⟩ := List.forall_mem_cons.mp hnot
    exact (ih hps hnot).trans ((pixel_plot hp hx).trans (if_neg hne))

/-- Where something is painted, always in one color, the pixel gets it. -/
theorem pixel_paint (hps : ∀ p ∈ ps, p.2.1 < r.width) (hx : x < r.width) (hmem : ∃ p ∈ ps, (x, y) = p.2)
    (hcolor : ∀ p ∈ ps, (x, y) = p.2 → p.1 = c) : r.pixel (r.paint m ps) x y = c % 256 ^ 3 := by
  induction ps generalizing m with
  | nil =>
    obtain ⟨p, hp, -⟩ := hmem
    cases hp
  | cons p ps ih =>
    obtain ⟨hp, hps⟩ := List.forall_mem_cons.mp hps
    obtain ⟨hfirst, hcolor⟩ := List.forall_mem_cons.mp hcolor
    by_cases hlater : ∃ q ∈ ps, (x, y) = q.2
    · exact ih hps hlater hcolor
    · have hnot : ∀ q ∈ ps, (x, y) ≠ q.2 := fun q hq he => hlater ⟨q, hq, he⟩
      have hthis : (x, y) = p.2 := by
        obtain ⟨q, hq, he⟩ := hmem
        rcases List.mem_cons.mp hq with rfl | hq
        · exact he
        · exact absurd he (hnot q hq)
      have hplot : r.pixel (r.plot m p) x y = p.1 % 256 ^ 3 := (pixel_plot hp hx).trans (if_pos hthis)
      rw [hfirst hthis] at hplot
      exact (pixel_paint_of_notMem hps hx hnot).trans hplot

end Raster

end BareKernel.Links

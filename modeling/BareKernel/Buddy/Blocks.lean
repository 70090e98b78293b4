import BareKernel.Buddy.Allocator
import BareKernel.Links.Chain
import Mathlib.Data.Nat.Bitwise
import Mathlib.Data.List.Nodup
import Mathlib.Order.Interval.Finset.Nat
import Mathlib.Tactic.Ring

/-! The blocks of the buddy allocator. Every block is handed out or on the free
list of its order; the extents of all blocks are disjoint and inside the region.
A block of an order below the top one has exactly that order's size, a block of
the top order at least that. Each piece of the allocator moves a block from one
place to another. -/

namespace BareKernel.Buddy

open Function (update)
open Links

/-- Where the block at an address is, if there is one. -/
inductive Place where
  | outside
  | live
  | free (order : ℕ)

/-- The bytes of a block of an order. -/
def blockBytes (order : ℕ) : ℕ := 2 ^ order * minBlockSize

/-- The block at `b` has the alignment and the size of an order. -/
structure Sized (size : ℕ → ℕ) (b order : ℕ) : Prop where
  aligned : blockBytes order ∣ b
  eq : order < maxOrder → size b + headerSize = blockBytes order
  least : blockBytes order ≤ size b + headerSize
  le : order ≤ maxOrder

/-- Every block has its place. `F k` is the free list of order `k`. -/
structure Blocks (g : Heap) (place : ℕ → Place) (F : ℕ → List ℕ) : Prop where
  list : ∀ k ≤ maxOrder, Chain g.next 0 (g.freeBlocks k) (F k)
  nodup : ∀ k ≤ maxOrder, (F k).Nodup
  mem : ∀ k ≤ maxOrder, ∀ b, b ∈ F k ↔ place b = .free k
  free_sized : ∀ b k, place b = .free k → Sized g.size b k
  free_mark : ∀ b k, place b = .free k → g.isFree b = true
  live_sized : ∀ b, place b = .live → ∃ k, Sized g.size b k
  inside : ∀ b, place b ≠ .outside →
    g.memoryStart ≤ b ∧ b + headerSize + g.size b ≤ g.memoryStart + g.totalSize
  disjoint : ∀ a b, place a ≠ .outside → place b ≠ .outside → a ≠ b →
    a + headerSize + g.size a ≤ b ∨ b + headerSize + g.size b ≤ a
  start_pos : 0 < g.memoryStart
  small : g.totalSize < wordSize

/-- The byte at `x` is in some block. -/
def Covered (g : Heap) (place : ℕ → Place) (x : ℕ) : Prop :=
  ∃ b, place b ≠ .outside ∧ b ≤ x ∧ x < b + headerSize + g.size b

/-- Every byte of the region is in some block. -/
def Full (g : Heap) (place : ℕ → Place) : Prop :=
  ∀ x, g.memoryStart ≤ x → x < g.memoryStart + g.totalSize →
    ∃ b, place b ≠ .outside ∧ b ≤ x ∧ x < b + headerSize + g.size b

variable {g g' : Heap} {place place' : ℕ → Place} {F : ℕ → List ℕ} {b k n : ℕ}

/-- Being covered depends on which addresses are blocks and on their sizes. -/
theorem Covered.congr {x : ℕ} (h : Covered g place x)
    (hp : ∀ x, place x ≠ .outside → place' x ≠ .outside) (hs : g'.size = g.size) : Covered g' place' x := by
  obtain ⟨b, hb, hin⟩ := h
  refine ⟨b, hp b hb, ?_⟩
  rw [hs]
  exact hin

theorem placed_update {p : Place} {x c : ℕ} (hp : p ≠ .outside) (hx : place x ≠ .outside) :
    update place c p x ≠ .outside := by
  rcases eq_or_ne x c with rfl | hxc
  · simpa using hp
  · rwa [Function.update_of_ne hxc]

theorem blockBytes_succ (k : ℕ) : blockBytes (k + 1) = 2 * blockBytes k := by
  simp only [blockBytes, pow_succ]
  ring

theorem blockBytes_mono {j k : ℕ} (h : j ≤ k) : blockBytes j ≤ blockBytes k :=
  Nat.mul_le_mul_right _ (Nat.pow_le_pow_right (by decide) h)

theorem minBlockSize_le (k : ℕ) : minBlockSize ≤ blockBytes k :=
  Nat.le_mul_of_pos_left _ (Nat.two_pow_pos k)

theorem blockBytes_maxOrder : blockBytes maxOrder = 2 ^ 18 := by decide

theorem Blocks.pos (h : Blocks g place F) (hb : place b ≠ .outside) : b ≠ 0 := by
  have := h.start_pos
  have := (h.inside b hb).1
  omega

/-- No block begins inside another one. -/
theorem Blocks.outside_of_inner (h : Blocks g place F) {x : ℕ} (hb : place b ≠ .outside)
    (hlo : b < x) (hhi : x < b + headerSize + g.size b) : place x = .outside := by
  by_contra hx
  have hpos : headerSize = 32 := rfl
  rcases h.disjoint b x hb hx hlo.ne with hd | hd <;> omega

theorem Blocks.length_lt (h : Blocks g place F) (hk : k ≤ maxOrder) (hb : place b ≠ .outside) :
    (F k).length < g.totalSize := by
  have hpos : headerSize = 32 := rfl
  have hin := h.inside b hb
  have hsub : (F k).toFinset ⊆ Finset.Ico g.memoryStart (g.memoryStart + g.totalSize - 31) := by
    intro x hx
    rw [List.mem_toFinset, h.mem k hk] at hx
    have := h.inside x (by simp [hx])
    rw [Finset.mem_Ico]
    omega
  have hcard := Finset.card_le_card hsub
  rw [List.toFinset_card_of_nodup (h.nodup k hk), Nat.card_Ico] at hcard
  omega

/-- The headers of live blocks are free to use. -/
theorem Blocks.congr (h : Blocks g place F)
    (hn : ∀ x j, place x = .free j → g'.next x = g.next x)
    (hm : ∀ x j, place x = .free j → g'.isFree x = g.isFree x)
    (hf : g'.freeBlocks = g.freeBlocks) (hs : g'.size = g.size)
    (hst : g'.memoryStart = g.memoryStart) (ht : g'.totalSize = g.totalSize) :
    Blocks g' place F := by
  refine ⟨fun j hj => ?_, h.nodup, h.mem, ?_, fun x j hx => ?_, ?_, ?_, ?_, ?_, ?_⟩
  · rw [hf]
    apply (h.list j hj).congr
    intro x hx
    exact hn x j ((h.mem j hj x).mp hx)
  · rw [hs]
    exact h.free_sized
  · rw [hm x j hx]
    exact h.free_mark x j hx
  · rw [hs]
    exact h.live_sized
  · rw [hs, hst, ht]
    exact h.inside
  · rw [hs]
    exact h.disjoint
  · rw [hst]
    exact h.start_pos
  · rw [ht]
    exact h.small

/-! ### Taking a block off its list -/

section SetLink

variable (g : Heap) (order prev link : ℕ)

@[simp] theorem setLink_size : (setLink g order prev link).size = g.size := by
  unfold setLink; split <;> rfl

@[simp] theorem setLink_isFree : (setLink g order prev link).isFree = g.isFree := by
  unfold setLink; split <;> rfl

@[simp] theorem setLink_memoryStart : (setLink g order prev link).memoryStart = g.memoryStart := by
  unfold setLink; split <;> rfl

@[simp] theorem setLink_totalSize : (setLink g order prev link).totalSize = g.totalSize := by
  unfold setLink; split <;> rfl

end SetLink

theorem Blocks.setLink_list (h : Blocks g place F) (hk : k ≤ maxOrder) {A B : List ℕ}
    (hF : F k = A ++ b :: B) {j : ℕ} (hj : j ≤ maxOrder) :
    Chain (setLink g k (A.getLast?.getD 0) (g.next b)).next 0
      ((setLink g k (A.getLast?.getD 0) (g.next b)).freeBlocks j) (update F k (A ++ B) j) := by
  have hchain := hF ▸ h.list k hk
  have hnd := hF ▸ h.nodup k hk
  rcases A.eq_nil_or_concat with rfl | ⟨A, p, rfl⟩
  · simp only [setLink, List.getLast?_nil, Option.getD_none, if_true]
    rcases eq_or_ne j k with rfl | hjk
    · rw [Function.update_self, Function.update_self]
      exact hchain.2.2
    · rw [Function.update_of_ne hjk, Function.update_of_ne hjk]
      exact h.list j hj
  · rw [List.concat_eq_append] at *
    have hpF : p ∈ F k := by simp [hF]
    have hp0 : p ≠ 0 := fun he => (h.list k hk).null_notMem (he ▸ hpF)
    have hset : setLink g k ((A ++ [p]).getLast?.getD 0) (g.next b) =
        { g with next := update g.next p (g.next b) } := by simp [setLink, hp0]
    rw [hset]
    show Chain (update g.next p (g.next b)) 0 (g.freeBlocks j) (update F k (A ++ [p] ++ B) j)
    rcases eq_or_ne j k with rfl | hjk
    · rw [Function.update_self, List.append_assoc, List.singleton_append]
      apply Chain.unlink
      · simpa using hchain
      · simpa using hnd
    · rw [Function.update_of_ne hjk]
      apply (h.list j hj).congr
      intro x hx
      apply Function.update_of_ne
      rintro rfl
      have hxk := (h.mem k hk x).mp hpF
      rw [(h.mem j hj x).mp hx] at hxk
      exact hjk (by simpa using hxk)

theorem Blocks.take (h : Blocks g place F) (hk : k ≤ maxOrder) {A B : List ℕ}
    (hF : F k = A ++ b :: B) :
    Blocks (setLink g k (A.getLast?.getD 0) (g.next b)) (update place b .live)
      (update F k (A ++ B)) ∧ Sized g.size b k := by
  have hb : place b = .free k := (h.mem k hk b).mp (by simp [hF])
  have hsized := h.free_sized b k hb
  have hnd := hF ▸ h.nodup k hk
  have hbAB : b ∉ A ++ B := (List.nodup_cons.mp (List.perm_middle.nodup_iff.mp hnd)).1
  have hplaced : ∀ x, update place b Place.live x ≠ .outside ↔ place x ≠ .outside := by
    intro x
    by_cases hx : x = b <;> simp [hx, hb]
  refine ⟨⟨fun j hj => h.setLink_list hk hF hj, ?_, ?_, ?_, ?_, ?_, ?_, ?_, ?_, ?_⟩, hsized⟩
  · intro j hj
    rcases eq_or_ne j k with rfl | hjk
    · rw [Function.update_self]
      exact (List.nodup_cons.mp (List.perm_middle.nodup_iff.mp hnd)).2
    · rw [Function.update_of_ne hjk]
      exact h.nodup j hj
  · intro j hj x
    have hm := h.mem j hj x
    rcases eq_or_ne x b with rfl | hx
    · rcases eq_or_ne j k with rfl | hjk
      · simpa using hbAB
      · simp [hjk, hm, hb, Ne.symm hjk]
    · rcases eq_or_ne j k with rfl | hjk
      · simpa [hF, hx] using hm
      · simpa [hjk, hx] using hm
  · intro x j hx
    have hxb : x ≠ b := by rintro rfl; simp at hx
    rw [Function.update_of_ne hxb] at hx
    simpa using h.free_sized x j hx
  · intro x j hx
    have hxb : x ≠ b := by rintro rfl; simp at hx
    rw [Function.update_of_ne hxb] at hx
    simpa using h.free_mark x j hx
  · intro x hx
    rw [setLink_size]
    rcases eq_or_ne x b with rfl | hxb
    · exact ⟨k, hsized⟩
    · rw [Function.update_of_ne hxb] at hx
      exact h.live_sized x hx
  · intro x hx
    simpa using h.inside x ((hplaced x).mp hx)
  · intro x y hx hy
    simpa using h.disjoint x y ((hplaced x).mp hx) ((hplaced y).mp hy)
  · simpa using h.start_pos
  · simpa using h.small

/-! ### Putting a block on a list -/

theorem Blocks.push (h : Blocks g place F) (hb : place b = .live) (hs : Sized g.size b k)
    (hf : g.isFree b = true) :
    Blocks { g with next := update g.next b (g.freeBlocks k), freeBlocks := update g.freeBlocks k b }
      (update place b (.free k)) (update F k (b :: F k)) := by
  have hbF : ∀ j ≤ maxOrder, b ∉ F j := by
    intro j hj hm
    rw [h.mem j hj, hb] at hm
    simp at hm
  have hplaced : ∀ x, update place b (Place.free k) x ≠ .outside ↔ place x ≠ .outside := by
    intro x
    by_cases hx : x = b <;> simp [hx, hb]
  refine ⟨?_, ?_, ?_, ?_, ?_, ?_, fun x hx => h.inside x ((hplaced x).mp hx),
    fun x y hx hy => h.disjoint x y ((hplaced x).mp hx) ((hplaced y).mp hy), h.start_pos, h.small⟩
  · intro j hj
    show Chain (update g.next b (g.freeBlocks k)) 0 (update g.freeBlocks k b j)
      (update F k (b :: F k) j)
    rcases eq_or_ne j k with rfl | hjk
    · rw [Function.update_self, Function.update_self]
      exact (h.list j hj).push (hbF j hj) (h.pos (by simp [hb]))
    · rw [Function.update_of_ne hjk, Function.update_of_ne hjk]
      apply (h.list j hj).congr
      intro x hx
      apply Function.update_of_ne
      rintro rfl
      exact hbF j hj hx
  · intro j hj
    rcases eq_or_ne j k with rfl | hjk
    · rw [Function.update_self]
      exact List.nodup_cons.mpr ⟨hbF j hj, h.nodup j hj⟩
    · rw [Function.update_of_ne hjk]
      exact h.nodup j hj
  · intro j hj x
    have hm := h.mem j hj x
    rcases eq_or_ne x b with rfl | hx
    · rcases eq_or_ne j k with rfl | hjk
      · simp
      · simp [hjk, hbF j hj, Ne.symm hjk]
    · rcases eq_or_ne j k with rfl | hjk
      · simpa [hx] using hm
      · simpa [hjk, hx] using hm
  · intro x j hx
    rcases eq_or_ne x b with rfl | hxb
    · obtain rfl : k = j := by simpa using hx
      exact hs
    · rw [Function.update_of_ne hxb] at hx
      exact h.free_sized x j hx
  · intro x j hx
    rcases eq_or_ne x b with rfl | hxb
    · exact hf
    · rw [Function.update_of_ne hxb] at hx
      exact h.free_mark x j hx
  · intro x hx
    have hxb : x ≠ b := by rintro rfl; simp at hx
    rw [Function.update_of_ne hxb] at hx
    exact h.live_sized x hx

/-! ### Cutting a block and fusing two -/

theorem headerSize_lt (k : ℕ) : headerSize < blockBytes k :=
  (show headerSize < minBlockSize by decide).trans_le (minBlockSize_le k)

theorem sized_half {size : ℕ → ℕ} (hk : k ≤ maxOrder) (hal : blockBytes k ∣ b)
    (hsz : size b = blockBytes k - headerSize) : Sized size b k := by
  have := headerSize_lt k
  exact ⟨hal, fun _ => by omega, by omega, hk⟩

/-- A live block of order `k + 1` is cut; its upper half is a live block too. -/
theorem Blocks.cut (h : Blocks g place F) (hb : place b = .live) (hs : Sized g.size b (k + 1))
    (mark : ℕ → Bool) (hmark : ∀ x ≠ b + blockBytes k, mark x = g.isFree x) :
    Blocks { g with
      size := update (update g.size (b + blockBytes k) (blockBytes k - headerSize)) b
        (blockBytes k - headerSize)
      isFree := mark } (update place (b + blockBytes k) .live) F := by
  have hhdr := headerSize_lt k
  have hleast := blockBytes_succ k ▸ hs.least
  have hbo : place b ≠ .outside := by simp [hb]
  set c := b + blockBytes k with hc
  have hco : place c = .outside := h.outside_of_inner hbo (by omega) (by omega)
  have hcb : c ≠ b := by omega
  set size := update (update g.size c (blockBytes k - headerSize)) b (blockBytes k - headerSize)
    with hsize
  have hsb : size b = blockBytes k - headerSize := by simp [hsize]
  have hsc : size c = blockBytes k - headerSize := by simp [hsize, hcb]
  have hsx : ∀ x, x ≠ b → x ≠ c → size x = g.size x := fun x hx hxc => by simp [hsize, hx, hxc]
  have hal : blockBytes k ∣ b := (blockBytes_succ k ▸ Nat.dvd_mul_left ..).trans hs.aligned
  have hkm : k ≤ maxOrder := by have := hs.le; omega
  have hplaced : ∀ x, x ≠ c → update place c Place.live x ≠ .outside → place x ≠ .outside := by
    intro x hx
    rw [Function.update_of_ne hx]
    exact id
  -- another block lies below `b` or above both halves
  have hapart : ∀ x, place x ≠ .outside → x ≠ b →
      x + headerSize + g.size x ≤ b ∨ c + blockBytes k ≤ x := by
    intro x hx hxb
    rcases h.disjoint x b hx hbo hxb with hd | hd <;> omega
  have hin := h.inside b hbo
  refine ⟨h.list, h.nodup, ?_, ?_, ?_, ?_, ?_, ?_, h.start_pos, h.small⟩
  · intro j hj x
    rw [h.mem j hj]
    rcases eq_or_ne x c with rfl | hx
    · simp [hco]
    · simp [hx]
  · intro x j hx
    have hxc : x ≠ c := by rintro rfl; simp at hx
    rw [Function.update_of_ne hxc] at hx
    have hxb : x ≠ b := by rintro rfl; simp [hb] at hx
    have hsx' := h.free_sized x j hx
    exact ⟨hsx'.aligned, by simpa [hsx x hxb hxc] using hsx'.eq,
      by simpa [hsx x hxb hxc] using hsx'.least, hsx'.le⟩
  · intro x j hx
    have hxc : x ≠ c := by rintro rfl; simp at hx
    rw [Function.update_of_ne hxc] at hx
    exact (hmark x hxc).trans (h.free_mark x j hx)
  · intro x hx
    rcases eq_or_ne x c with rfl | hxc
    · exact ⟨k, sized_half hkm (Nat.dvd_add hal dvd_rfl) hsc⟩
    rcases eq_or_ne x b with rfl | hxb
    · exact ⟨k, sized_half hkm hal hsb⟩
    rw [Function.update_of_ne hxc] at hx
    obtain ⟨j, hj⟩ := h.live_sized x hx
    exact ⟨j, hj.aligned, by simpa [hsx x hxb hxc] using hj.eq,
      by simpa [hsx x hxb hxc] using hj.least, hj.le⟩
  · intro x hx
    show g.memoryStart ≤ x ∧ x + headerSize + size x ≤ g.memoryStart + g.totalSize
    rcases eq_or_ne x c with rfl | hxc
    · rw [hsc]
      omega
    rcases eq_or_ne x b with rfl | hxb
    · rw [hsb]
      omega
    rw [hsx x hxb hxc]
    exact h.inside x (hplaced x hxc hx)
  · intro x y hx hy hxy
    show x + headerSize + size x ≤ y ∨ y + headerSize + size y ≤ x
    rcases eq_or_ne x c with rfl | hxc
    · rw [hsc]
      rcases eq_or_ne y b with rfl | hyb
      · rw [hsb]
        omega
      · rw [hsx y hyb hxy.symm]
        rcases hapart y (hplaced y hxy.symm hy) hyb with hd | hd <;> omega
    rcases eq_or_ne x b with rfl | hxb
    · rw [hsb]
      rcases eq_or_ne y c with rfl | hyc
      · omega
      · rw [hsx y hxy.symm hyc]
        rcases hapart y (hplaced y hyc hy) hxy.symm with hd | hd <;> omega
    rw [hsx x hxb hxc]
    rcases eq_or_ne y c with rfl | hyc
    · rw [hsc]
      rcases hapart x (hplaced x hxc hx) hxb with hd | hd <;> omega
    rcases eq_or_ne y b with rfl | hyb
    · rw [hsb]
      rcases hapart x (hplaced x hxc hx) hxb with hd | hd <;> omega
    rw [hsx y hyb hyc]
    exact h.disjoint x y (hplaced x hxc hx) (hplaced y hyc hy) hxy

/-- A byte is not lost when the block that is cut has the size of its order, or when
it lies within that size. -/
theorem Covered.cut {x : ℕ} (h : Covered g place x) (hb : place b ≠ .outside)
    (hx : g.size b + headerSize = blockBytes (k + 1) ∨ x < b + blockBytes (k + 1))
    (hs : g'.size = update (update g.size (b + blockBytes k) (blockBytes k - headerSize)) b
      (blockBytes k - headerSize))
    (hout : place (b + blockBytes k) = .outside) : Covered g' (update place (b + blockBytes k) .live) x := by
  have hhdr := headerSize_lt k
  rw [blockBytes_succ] at hx
  have hcb : b + blockBytes k ≠ b := by omega
  obtain ⟨a, ha, hax, hxa⟩ := h
  unfold Covered
  rw [hs]
  rcases eq_or_ne a b with rfl | hab
  · rcases Nat.lt_or_ge x (a + blockBytes k) with hlt | hge
    · refine ⟨a, by rw [Function.update_of_ne hcb.symm]; exact hb, hax, ?_⟩
      rw [Function.update_self]
      omega
    · refine ⟨a + blockBytes k, by simp, hge, ?_⟩
      rw [Function.update_of_ne hcb, Function.update_self]
      omega
  · have hac : a ≠ b + blockBytes k := fun he => ha (he ▸ hout)
    refine ⟨a, by rwa [Function.update_of_ne hac], hax, ?_⟩
    rwa [Function.update_of_ne hab, Function.update_of_ne hac]

/-- No byte is lost when a block and the one behind it become one. -/
theorem Covered.fuse {x : ℕ} (h : Covered g place x) (hb : place b ≠ .outside)
    (hsz : g.size b + headerSize = blockBytes k) (hsz' : g.size (b + blockBytes k) + headerSize = blockBytes k)
    (hs : g'.size = update g.size b (blockBytes (k + 1) - headerSize)) :
    Covered g' (update place (b + blockBytes k) .outside) x := by
  have hhdr := headerSize_lt k
  have hcb : b ≠ b + blockBytes k := by omega
  obtain ⟨a, ha, hax, hxa⟩ := h
  unfold Covered
  rw [hs]
  by_cases hpair : a = b ∨ a = b + blockBytes k
  · refine ⟨b, by rwa [Function.update_of_ne hcb], ?_, ?_⟩
    · omega
    · rw [Function.update_self, blockBytes_succ]
      rcases hpair with rfl | rfl <;> omega
  · rw [not_or] at hpair
    refine ⟨a, by rwa [Function.update_of_ne hpair.2], hax, ?_⟩
    rwa [Function.update_of_ne hpair.1]

/-- Two live blocks of order `k`, one behind the other and the lower one aligned
to twice their size, become one. -/
theorem Blocks.fuse (h : Blocks g place F) (hb : place b = .live)
    (hc : place (b + blockBytes k) = .live) (hs : Sized g.size b k)
    (hs' : Sized g.size (b + blockBytes k) k) (hk : k < maxOrder) (hal : blockBytes (k + 1) ∣ b) :
    Blocks { g with size := update g.size b (blockBytes (k + 1) - headerSize) }
      (update place (b + blockBytes k) .outside) F := by
  have hhdr := headerSize_lt k
  have hb1 := blockBytes_succ k
  have hsz := hs.eq hk
  have hsz' := hs'.eq hk
  set c := b + blockBytes k with hcdef
  have hcb : c ≠ b := by omega
  set size := update g.size b (blockBytes (k + 1) - headerSize) with hsize
  have hsb : size b = blockBytes (k + 1) - headerSize := by simp [hsize]
  have hsx : ∀ x, x ≠ b → size x = g.size x := fun x hx => by simp [hsize, hx]
  have hne : ∀ x, update place c Place.outside x ≠ .outside → x ≠ c ∧ place x ≠ .outside := by
    intro x hx
    have hxc : x ≠ c := by rintro rfl; simp at hx
    exact ⟨hxc, by rwa [Function.update_of_ne hxc] at hx⟩
  have hbo : place b ≠ .outside := by simp [hb]
  have hco : place c ≠ .outside := by simp [hc]
  -- another block lies below or above both
  have hapart : ∀ x, place x ≠ .outside → x ≠ b → x ≠ c →
      x + headerSize + g.size x ≤ b ∨ b + blockBytes (k + 1) ≤ x := by
    intro x hx hxb hxc
    have h1 := h.disjoint x b hx hbo hxb
    have h2 := h.disjoint x c hx hco hxc
    omega
  have hinb := h.inside b hbo
  have hinc := h.inside c hco
  refine ⟨h.list, h.nodup, ?_, ?_, ?_, ?_, ?_, ?_, h.start_pos, h.small⟩
  · intro j hj x
    rw [h.mem j hj]
    rcases eq_or_ne x c with rfl | hx
    · simp [hc]
    · simp [hx]
  · intro x j hx
    have hxc : x ≠ c := by rintro rfl; simp at hx
    rw [Function.update_of_ne hxc] at hx
    have hxb : x ≠ b := by rintro rfl; simp [hb] at hx
    have hsx' := h.free_sized x j hx
    exact ⟨hsx'.aligned, by simpa [hsx x hxb] using hsx'.eq,
      by simpa [hsx x hxb] using hsx'.least, hsx'.le⟩
  · intro x j hx
    have hxc : x ≠ c := by rintro rfl; simp at hx
    rw [Function.update_of_ne hxc] at hx
    exact h.free_mark x j hx
  · intro x hx
    have hxc : x ≠ c := by rintro rfl; simp at hx
    rw [Function.update_of_ne hxc] at hx
    rcases eq_or_ne x b with rfl | hxb
    · exact ⟨k + 1, sized_half hk hal hsb⟩
    · obtain ⟨j, hj⟩ := h.live_sized x hx
      exact ⟨j, hj.aligned, by simpa [hsx x hxb] using hj.eq,
        by simpa [hsx x hxb] using hj.least, hj.le⟩
  · intro x hx
    show g.memoryStart ≤ x ∧ x + headerSize + size x ≤ g.memoryStart + g.totalSize
    rcases eq_or_ne x b with rfl | hxb
    · rw [hsb]
      omega
    · rw [hsx x hxb]
      exact h.inside x (hne x hx).2
  · intro x y hx hy hxy
    show x + headerSize + size x ≤ y ∨ y + headerSize + size y ≤ x
    obtain ⟨hxc, hxo⟩ := hne x hx
    obtain ⟨hyc, hyo⟩ := hne y hy
    rcases eq_or_ne x b with rfl | hxb
    · rw [hsb, hsx y hxy.symm]
      rcases hapart y hyo hxy.symm hyc with hd | hd <;> omega
    rcases eq_or_ne y b with rfl | hyb
    · rw [hsb, hsx x hxy]
      rcases hapart x hxo hxy hxc with hd | hd <;> omega
    rw [hsx x hxb, hsx y hyb]
    exact h.disjoint x y hxo hyo hxy

/-! ### Merged blocks -/

/-- No free block has its buddy on its own list, and all blocks begin within the
largest order from the start of the region on. -/
structure Coalesced (g : Heap) (place : ℕ → Place) (F : ℕ → List ℕ) : Prop where
  apart : ∀ k < maxOrder, ∀ b ∈ F k, b ^^^ blockBytes k ∉ F k
  below : ∀ b, place b ≠ .outside → b < g.memoryStart + blockBytes maxOrder
  aligned : blockBytes maxOrder ∣ g.memoryStart

theorem blockBytes_dvd (hk : k ≤ maxOrder) : blockBytes k ∣ blockBytes maxOrder :=
  Nat.mul_dvd_mul_right (Nat.pow_dvd_pow 2 hk) minBlockSize

/-- The buddy of an aligned block is its other half in a block twice the size. -/
theorem xor_blockBytes (h : blockBytes k ∣ b) :
    (b ^^^ blockBytes k = b + blockBytes k ∧ blockBytes (k + 1) ∣ b) ∨
      (b = (b ^^^ blockBytes k) + blockBytes k ∧ blockBytes (k + 1) ∣ b ^^^ blockBytes k) := by
  obtain ⟨q, rfl⟩ := h
  have hpow : blockBytes k = 2 ^ (k + 6) := by
    simp only [blockBytes, minBlockSize, pow_add]
    norm_num
  have hxor : blockBytes k * q ^^^ blockBytes k = blockBytes k * (q ^^^ 1) := by
    have hshift := Nat.shiftLeft_xor_distrib (i := k + 6) (a := q) (b := 1)
    simp only [Nat.shiftLeft_eq, one_mul] at hshift
    rw [hpow, Nat.mul_comm, ← hshift, Nat.mul_comm]
  rw [hxor]
  rcases Nat.even_or_odd q with ⟨m, rfl⟩ | ⟨m, rfl⟩
  · refine Or.inl ⟨?_, m, ?_⟩
    · rw [Nat.xor_one_of_even ⟨m, rfl⟩, Nat.mul_succ]
    · rw [blockBytes_succ]
      ring
  · have hpred : (2 * m + 1) ^^^ 1 = 2 * m := Nat.xor_one_of_odd ⟨m, rfl⟩
    refine Or.inr ⟨?_, m, ?_⟩
    · rw [hpred]
      ring
    · rw [hpred, blockBytes_succ]
      ring

/-- The buddy of an upper half is the lower one. -/
theorem xor_upper (h : blockBytes (k + 1) ∣ b) : (b + blockBytes k) ^^^ blockBytes k = b := by
  have hal : blockBytes k ∣ b := (blockBytes_succ k ▸ Nat.dvd_mul_left ..).trans h
  have hpos := headerSize_lt k
  rcases xor_blockBytes (Nat.dvd_add hal dvd_rfl) with ⟨-, hup⟩ | ⟨heq, -⟩
  · have hhalf := Nat.le_of_dvd (by omega) ((Nat.dvd_add_right h).mp hup)
    rw [blockBytes_succ] at hhalf
    omega
  · omega

theorem xor_blockBytes_ne (b k : ℕ) : b ^^^ blockBytes k ≠ b := by
  intro he
  have hself : b ^^^ blockBytes k = b ^^^ 0 := by rw [he, Nat.xor_zero]
  have hzero := Nat.xor_right_injective hself
  have hpos := headerSize_lt k
  omega

theorem Coalesced.mono {F' : ℕ → List ℕ} (h : Coalesced g place F) (hF : ∀ j, ∀ x ∈ F' j, x ∈ F j)
    (hp : ∀ x, place' x ≠ .outside → place x ≠ .outside) (hst : g'.memoryStart = g.memoryStart) :
    Coalesced g' place' F' := by
  refine ⟨fun j hj x hx hbuddy => ?_, fun x hx => ?_, ?_⟩
  · exact h.apart j hj x (hF j x hx) (hF j _ hbuddy)
  · rw [hst]
    exact h.below x (hp x hx)
  · rw [hst]
    exact h.aligned

theorem Coalesced.take (h : Coalesced g place F) (hb : place b ≠ .outside) {A B : List ℕ}
    (hF : F k = A ++ b :: B) (hst : g'.memoryStart = g.memoryStart) :
    Coalesced g' (update place b .live) (update F k (A ++ B)) := by
  refine h.mono (fun j x hx => ?_) (fun x hx => ?_) hst
  · rcases eq_or_ne j k with rfl | hjk
    · rw [Function.update_self, List.mem_append] at hx
      rw [hF, List.mem_append, List.mem_cons]
      exact hx.imp_right Or.inr
    · rwa [Function.update_of_ne hjk] at hx
  · rcases eq_or_ne x b with rfl | hxb
    · exact hb
    · rwa [Function.update_of_ne hxb] at hx

/-- A block whose buddy is not on the list is put on it. -/
theorem Coalesced.push (h : Coalesced g place F) (hb : place b ≠ .outside)
    (hfree : k < maxOrder → b ^^^ blockBytes k ∉ F k) (hst : g'.memoryStart = g.memoryStart) :
    Coalesced g' (update place b (.free k)) (update F k (b :: F k)) := by
  refine ⟨fun j hj x hx hbuddy => ?_, fun x hx => ?_, ?_⟩
  · rcases eq_or_ne j k with rfl | hjk
    · rw [Function.update_self, List.mem_cons] at hx hbuddy
      rcases hx with rfl | hx <;> rcases hbuddy with hbuddy | hbuddy
      · exact xor_blockBytes_ne x j hbuddy
      · exact hfree hj hbuddy
      · apply hfree hj
        rw [← hbuddy, Nat.xor_assoc, Nat.xor_self, Nat.xor_zero]
        exact hx
      · exact h.apart j hj x hx hbuddy
    · rw [Function.update_of_ne hjk] at hx hbuddy
      exact h.apart j hj x hx hbuddy
  · rw [hst]
    rcases eq_or_ne x b with rfl | hxb
    · exact h.below x hb
    · rw [Function.update_of_ne hxb] at hx
      exact h.below x hx
  · rw [hst]
    exact h.aligned

/-- The upper half of a block begins within the largest order too. -/
theorem Coalesced.cut (h : Coalesced g place F) (hb : place b ≠ .outside) (hal : blockBytes (k + 1) ∣ b)
    (hk : k + 1 ≤ maxOrder) (hst : g'.memoryStart = g.memoryStart) :
    Coalesced g' (update place (b + blockBytes k) .live) F := by
  refine ⟨h.apart, fun x hx => ?_, ?_⟩
  · rw [hst]
    rcases eq_or_ne x (b + blockBytes k) with rfl | hxc
    · have hlow := h.below b hb
      -- both `b` and the end are multiples of twice the half
      have hend := (blockBytes_dvd hk).trans (Nat.dvd_add h.aligned dvd_rfl)
      have hle := Nat.le_of_lt_add_of_dvd (Nat.add_lt_add_right hlow (blockBytes (k + 1)))
        (Nat.dvd_add hal dvd_rfl) hend
      have hpos := headerSize_lt k
      rw [blockBytes_succ] at hle
      omega
    · rw [Function.update_of_ne hxc] at hx
      exact h.below x hx
  · rw [hst]
    exact h.aligned

end BareKernel.Buddy

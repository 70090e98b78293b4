import BareKernel.Buddy.Runs
import BareKernel.Links.Intervals

/-! What holds of all blocks of the buddy allocator, free and live, in every run: they
are disjoint and inside the region, and a free block has the size and the place of its
order. They fill the region as long as no block is cut that is larger than its order:
the first block of a region of more than `2 ^ 18` bytes is. -/

namespace BareKernel.Buddy

open Function (update)
open Links

variable {s t : BuddyRun} {call : BuddyCall} {ok : BuddyRun → BuddyCall → Prop} {start size n : ℕ}
  {g g' : Heap} {place : ℕ → Place} {F : ℕ → List ℕ} {b k : ℕ}

/-- A free block or a live one. -/
def IsBlock (s : BuddyRun) (b : ℕ) : Prop := (∃ k ≤ maxOrder, OnList s.heap k b) ∨ b + headerSize ∈ s.live

/-- The lists of free blocks, the live blocks and the headers agree. -/
structure Represents (start size : ℕ) (s : BuddyRun) (F : ℕ → List ℕ) : Prop where
  list : ∀ k ≤ maxOrder, Chain s.heap.next 0 (s.heap.freeBlocks k) (F k)
  once : ∀ k ≤ maxOrder, (F k).Nodup
  oneList : ∀ j ≤ maxOrder, ∀ k ≤ maxOrder, ∀ b, b ∈ F j → b ∈ F k → j = k
  notLive : ∀ k ≤ maxOrder, ∀ b ∈ F k, b + headerSize ∉ s.live
  header : ∀ p ∈ s.live, headerSize ≤ p
  extent : ∀ k < maxOrder, ∀ b ∈ F k, headerSize + s.heap.size b = minBlockSize * 2 ^ k
  address : ∀ k < maxOrder, ∀ b ∈ F k, ∃ n, b = start + n * (minBlockSize * 2 ^ k)
  mark : ∀ k < maxOrder, ∀ b ∈ F k, s.heap.isFree b = true
  inside : ∀ b, IsBlock s b → start ≤ b ∧ b + headerSize + s.heap.size b ≤ start + size
  disjoint : ∀ a b, IsBlock s a → IsBlock s b → a ≠ b →
    a + headerSize + s.heap.size a ≤ b ∨ b + headerSize + s.heap.size b ≤ a

theorem BuddyInv.isBlock (h : BuddyInv s place F) : IsBlock s b ↔ place b ≠ .outside := by
  unfold IsBlock
  rw [h.live]
  constructor
  · rintro (⟨k, hk, hb⟩ | ⟨c, hc, hbc⟩)
    · have hfree := (h.blocks.mem k hk b).mp ((h.blocks.onList hk).mp hb)
      simp [hfree]
    · obtain rfl : b = c := by omega
      simp [hc]
  · intro hb
    cases hp : place b with
    | outside => exact absurd hp hb
    | live => exact Or.inr ⟨b, hp, rfl⟩
    | free k =>
      have hk := (h.blocks.free_sized b k hp).le
      exact Or.inl ⟨k, hk, (h.blocks.onList hk).mpr ((h.blocks.mem k hk b).mpr hp)⟩

/-! ### The region stays -/

theorem buddyStep_region (h : (buddySystem start size).step s call t) :
    t.heap.memoryStart = s.heap.memoryStart ∧ t.heap.totalSize = s.heap.totalSize := by
  cases call with
  | malloc n =>
    obtain ⟨-, ptr, g, hrun, rfl⟩ := h
    have hr := buddyMalloc_region s.heap n
    rw [hrun] at hr
    exact hr
  | free ptr =>
    obtain ⟨-, freed, g, hrun, rfl⟩ := h
    exact buddyFree_region hrun

theorem buddyRun_region (h : (buddySystem start size).Reach ok s) :
    s.heap.memoryStart = start ∧ s.heap.totalSize = size := by
  apply h.invariant (I := fun s => s.heap.memoryStart = start ∧ s.heap.totalSize = size)
  · rintro _ ⟨g, rfl⟩
    exact ⟨rfl, rfl⟩
  · rintro s call t ⟨h1, h2⟩ - hst
    obtain ⟨hstart, hsize⟩ := buddyStep_region hst
    exact ⟨hstart.trans h1, hsize.trans h2⟩

/-! ### The representation -/

/-- On a region that starts at `NULL` nothing is ever handed out. -/
theorem buddyRun_null (h : (buddySystem 0 size).Reach ok s) :
    s.live = [] ∧ s.heap.next 0 = 0 ∧ ∀ k ≤ maxOrder, s.heap.freeBlocks k = 0 := by
  apply h.invariant
    (I := fun s => s.live = [] ∧ s.heap.next 0 = 0 ∧ ∀ k ≤ maxOrder, s.heap.freeBlocks k = 0)
  · rintro _ ⟨g, rfl⟩
    refine ⟨rfl, by simp [buddyInit], fun k hk => ?_⟩
    simp only [buddyInit, Function.update_apply, hk, if_true]
    split <;> rfl
  · rintro s call t ⟨hlive, hnext, hempty⟩ - hst
    cases call with
    | malloc n =>
      obtain ⟨-, ptr, g, hrun, rfl⟩ := hst
      have hnull : buddyMalloc s.heap n = (0, s.heap) := by
        by_cases h0 : n = 0
        · simp [buddyMalloc, h0]
        · obtain ⟨-, -, h3⟩ := searchLoop_spec s.heap (n := maxOrder + 1) (requestOrder n) (by omega)
          have hover : maxOrder < searchLoop s.heap (maxOrder + 1) (requestOrder n) := by
            by_contra hle
            rw [not_lt] at hle
            exact h3 hle (hempty _ hle)
          simp only [requestOrder] at hover
          simp [buddyMalloc, h0, hover]
      obtain ⟨rfl, rfl⟩ : ptr = 0 ∧ g = s.heap := by simpa using hrun.symm.trans hnull
      exact ⟨hlive, hnext, hempty⟩
    | free ptr =>
      obtain ⟨hptr, -⟩ := hst
      rw [hlive] at hptr
      cases hptr

theorem BuddyInv.represents (h : BuddyInv s place F) (hal : blockBytes maxOrder ∣ start)
    (hstart : s.heap.memoryStart = start) (hsize : s.heap.totalSize = size) : Represents start size s F := by
  have hB := h.blocks
  have hbytes (k : ℕ) : minBlockSize * 2 ^ k = blockBytes k := Nat.mul_comm ..
  refine ⟨hB.list, hB.nodup, fun j hj k hk b hbj hbk => ?_, fun k hk b hb hlive => ?_, fun p hp => ?_,
    fun k hk b hb => ?_, fun k hk b hb => ?_, fun k hk b hb => ?_, fun b hb => ?_, fun a b ha hb hab => ?_⟩
  · have hplace := (hB.mem j hj b).mp hbj
    rw [(hB.mem k hk b).mp hbk] at hplace
    simpa using hplace.symm
  · obtain ⟨c, hc, hbc⟩ := (h.live _).mp hlive
    obtain rfl : b = c := by omega
    rw [(hB.mem k hk b).mp hb] at hc
    cases hc
  · obtain ⟨c, -, rfl⟩ := (h.live p).mp hp
    exact Nat.le_add_left ..
  · have hsized := hB.free_sized b k ((hB.mem k hk.le b).mp hb)
    rw [hbytes, Nat.add_comm]
    exact hsized.eq hk
  · have hfree := (hB.mem k hk.le b).mp hb
    have hlow := (hB.inside b (by simp [hfree])).1
    rw [hstart] at hlow
    obtain ⟨n, hn⟩ := Nat.dvd_sub (hB.free_sized b k hfree).aligned ((blockBytes_dvd hk.le).trans hal)
    refine ⟨n, ?_⟩
    rw [hbytes, Nat.mul_comm n, ← hn]
    omega
  · exact hB.free_mark b k ((hB.mem k hk.le b).mp hb)
  · have hin := hB.inside b (h.isBlock.mp hb)
    rwa [hstart, hsize] at hin
  · exact hB.disjoint a b (h.isBlock.mp ha) (h.isBlock.mp hb) hab

/-- In every run on an aligned region the blocks are represented. -/
theorem buddy_representation (hal : blockBytes maxOrder ∣ start) (hsz : blockBytes maxOrder ≤ size)
    (hw : size < wordSize) (h : (buddySystem start size).Reach (fun _ _ => True) s) :
    ∃ F, Represents start size s F := by
  rcases Nat.eq_zero_or_pos start with rfl | h0
  · obtain ⟨hlive, -, hempty⟩ := buddyRun_null h
    have hnone (b : ℕ) : ¬IsBlock s b := by
      rintro (⟨k, hk, L, hL, hb⟩ | hb)
      · rw [hL.nil_iff.mp (hempty k hk)] at hb
        cases hb
      · rw [hlive] at hb
        cases hb
    refine ⟨fun _ => [], fun k hk => hempty k hk, fun _ _ => .nil, by simp, by simp, by simp [hlive], by simp,
      by simp, by simp, fun b hb => absurd hb (hnone b), fun a b ha => absurd ha (hnone a)⟩
  · obtain ⟨place, F, hinv⟩ := buddyRun_inv h0 hal hsz hw h
    obtain ⟨hstart, hsize⟩ := buddyRun_region h
    exact ⟨F, hinv.represents hal hstart hsize⟩

/-- The kernel's region after a first malloc. -/
def oneMalloc : BuddyRun := ⟨(buddyMalloc kernelHeap 100).2, [kernelStart + headerSize]⟩

theorem oneMalloc_reach : (buddySystem kernelStart kernelSize).Reach (fun _ _ => True) oneMalloc :=
  kernelHeap_reach.step (a := .malloc 100) trivial ⟨by decide, _, _, rfl, rfl⟩

theorem buddy_representation_oneMalloc : ∃ F, Represents kernelStart kernelSize oneMalloc F :=
  buddy_representation (by decide) (by decide) (by decide) oneMalloc_reach

/-! ### Conservation -/

/-- The blocks fill the region: their extents add up to its size, and every address
belongs to one of them. -/
def Conserved (s : BuddyRun) : Prop :=
  ∃ S : Finset ℕ, (∀ b, b ∈ S ↔ IsBlock s b) ∧
    ∑ b ∈ S, (headerSize + s.heap.size b) = s.heap.totalSize ∧
    ∀ x, s.heap.memoryStart ≤ x → x < s.heap.memoryStart + s.heap.totalSize →
      ∃ b ∈ S, b ≤ x ∧ x < b + (headerSize + s.heap.size b)

/-- All blocks lie between the first address of the region and its end. -/
theorem BuddyInv.finite (h : BuddyInv s place F) : ∃ S : Finset ℕ, ∀ b, b ∈ S ↔ IsBlock s b := by
  classical
  refine ⟨(Finset.range (s.heap.memoryStart + s.heap.totalSize)).filter (IsBlock s), fun b => ?_⟩
  rw [Finset.mem_filter, Finset.mem_range]
  refine ⟨And.right, fun hb => ⟨?_, hb⟩⟩
  have hin := (h.blocks.inside b (h.isBlock.mp hb)).2
  simp only [headerSize] at hin
  omega

theorem BuddyInv.conserved (h : BuddyInv s place F) : Conserved s ↔ Full s.heap place := by
  obtain ⟨S, hS⟩ := h.finite
  have hin : ∀ b ∈ S, s.heap.memoryStart ≤ b ∧
      b + (headerSize + s.heap.size b) ≤ s.heap.memoryStart + s.heap.totalSize := by
    intro b hb
    have hb' := h.blocks.inside b (h.isBlock.mp ((hS b).mp hb))
    omega
  have hdisj : ∀ a ∈ S, ∀ b ∈ S, a ≠ b →
      a + (headerSize + s.heap.size a) ≤ b ∨ b + (headerSize + s.heap.size b) ≤ a := by
    intro a ha b hb hab
    have hd := h.blocks.disjoint a b (h.isBlock.mp ((hS a).mp ha)) (h.isBlock.mp ((hS b).mp hb)) hab
    omega
  have hsum := sum_length_eq_iff hin hdisj
  rw [Nat.add_sub_cancel_left] at hsum
  constructor
  · rintro ⟨S', hS', -, hcover⟩ x hlo hhi
    obtain ⟨b, hb, hin⟩ := hcover x hlo hhi
    exact ⟨b, h.isBlock.mp ((hS' b).mp hb), hin.1, by omega⟩
  · intro hfull
    have hcover : ∀ x, s.heap.memoryStart ≤ x → x < s.heap.memoryStart + s.heap.totalSize →
        ∃ b ∈ S, b ≤ x ∧ x < b + (headerSize + s.heap.size b) := by
      intro x hlo hhi
      obtain ⟨b, hb, hbx, hxb⟩ := hfull x hlo hhi
      exact ⟨b, (hS b).mpr (h.isBlock.mpr hb), hbx, by omega⟩
    exact ⟨S, hS, hsum.mpr hcover, hcover⟩

theorem buddyInit_full (g : Heap) (hsz : blockBytes maxOrder ≤ size) (hw : size < wordSize) :
    Full (buddyInit g start size) (update (fun _ => .outside) start (.free maxOrder)) := by
  have hhdr := headerSize_lt maxOrder
  have hpay : (buddyInit g start size).size start = size - headerSize := by
    simp only [buddyInit, Function.update_self, wordSize, headerSize] at *
    omega
  intro x hlo hhi
  refine ⟨start, by simp, hlo, ?_⟩
  rw [hpay]
  have hhi' : x < start + size := hhi
  omega

/-- As long as no block is cut that is larger than its order, the blocks fill the
region. -/
theorem buddy_conserves (h0 : 0 < start) (hal : blockBytes maxOrder ∣ start) (hsz : blockBytes maxOrder ≤ size)
    (hw : size < wordSize) (h : (buddySystem start size).Reach CutsExactly s) :
    Conserved s ∧ s.heap.totalSize = size := by
  obtain ⟨place, F, hinv, hfull⟩ : ∃ place F, BuddyInv s place F ∧ Full s.heap place := by
    apply h.invariant (I := fun s => ∃ place F, BuddyInv s place F ∧ Full s.heap place)
    · rintro _ ⟨g, rfl⟩
      exact ⟨_, _, buddyInit_inv g h0 hal hsz hw, buddyInit_full g hsz hw⟩
    · rintro s call t ⟨place, F, hinv, hfull⟩ hcut hst
      obtain ⟨place', F', hinv', hcov, -⟩ := buddyStep_inv hinv hst
      obtain ⟨hstart, hsize⟩ := buddyStep_region hst
      refine ⟨place', F', hinv', fun x hlo hhi => hcov x (Or.inl hcut) (hfull x ?_ ?_)⟩
      · rwa [hstart] at hlo
      · rwa [hstart, hsize] at hhi
  exact ⟨hinv.conserved.mpr hfull, (buddyRun_region h).2⟩

/-- A region of exactly the top order: its only block may be cut. -/
theorem buddy_conserves_exact :
    Conserved ⟨(buddyMalloc (buddyInit zeroHeap (2 ^ 18) (2 ^ 18)) 100).2, [2 ^ 18 + headerSize]⟩ ∧
      (buddyMalloc (buddyInit zeroHeap (2 ^ 18) (2 ^ 18)) 100).2.totalSize = 2 ^ 18 := by
  have hinit : (buddySystem (2 ^ 18) (2 ^ 18)).Reach CutsExactly ⟨buddyInit zeroHeap (2 ^ 18) (2 ^ 18), []⟩ :=
    .init ⟨zeroHeap, rfl⟩
  have hcut : CutsExactly ⟨buddyInit zeroHeap (2 ^ 18) (2 ^ 18), []⟩ (.malloc 100) :=
    Or.inr (Or.inr (Or.inr (Or.inr (by decide))))
  exact buddy_conserves (by decide) (by decide) (by decide) (by decide)
    (hinit.step hcut ⟨by decide, _, _, rfl, rfl⟩)

/-- A list of at most one block. -/
theorem OnList.eq_head (h : OnList g k b) (hnext : g.next (g.freeBlocks k) = 0) : b = g.freeBlocks k := by
  obtain ⟨L, hL, hb⟩ := h
  cases L with
  | nil => cases hb
  | cons x L =>
    obtain ⟨hx, -, hL⟩ := hL
    rw [← hx, hnext] at hL
    obtain rfl := hL.nil_iff.mp rfl
    rw [List.mem_singleton.mp hb, hx]

/-- The first malloc in the kernel's region cuts its only block, of 2 MiB, to the top
order; the blocks then end `2 ^ 18` bytes behind the start of the region. -/
theorem buddy_conserves_oneMalloc :
    ∃ s, (buddySystem kernelStart kernelSize).Reach (fun _ _ => True) s ∧ ¬Conserved s := by
  refine ⟨oneMalloc, oneMalloc_reach, ?_⟩
  rintro ⟨S, hS, -, hcover⟩
  obtain ⟨b, hb, -, hend⟩ := hcover (kernelStart + 2 ^ 18) (by decide) (by decide)
  have hshort : b + (headerSize + oneMalloc.heap.size b) ≤ kernelStart + 2 ^ 18 := by
    rcases (hS b).mp hb with ⟨k, hk, hon⟩ | hlive
    · have hnext : ∀ k ≤ maxOrder, oneMalloc.heap.next (oneMalloc.heap.freeBlocks k) = 0 := by decide
      have hall : ∀ k ≤ maxOrder, oneMalloc.heap.freeBlocks k +
          (headerSize + oneMalloc.heap.size (oneMalloc.heap.freeBlocks k)) ≤ kernelStart + 2 ^ 18 := by decide
      rw [hon.eq_head (hnext k hk)]
      exact hall k hk
    · obtain rfl : b = kernelStart := by
        have hself := List.mem_singleton.mp hlive
        omega
      decide
  omega

end BareKernel.Buddy

import BareKernel.Buddy.Calls
import BareKernel.Links.Runs

/-! Runs of the buddy allocator over a region aligned to the largest order. The
blocks stay in place in every run. What a malloc returns fits the request unless
the request is larger than the top order, or so large that adding the header
wraps. -/

namespace BareKernel.Buddy

open Function (update)
open Links

inductive BuddyCall where
  | malloc (size : ℕ)
  | free (ptr : ℕ)

/-- The allocator and the pointers it handed out and has not taken back. -/
structure BuddyRun where
  heap : Heap
  live : List ℕ

/-- A client of the allocator over `size` bytes from `start` on. -/
def buddySystem (start size : ℕ) : System BuddyRun BuddyCall where
  init s := ∃ g, s = ⟨buddyInit g start size, []⟩
  step s call t :=
    match call with
    | .malloc n => n < wordSize ∧ ∃ ptr g, buddyMalloc s.heap n = (ptr, g) ∧
        t = ⟨g, if ptr = 0 then s.live else ptr :: s.live⟩
    | .free ptr => ptr ∈ s.live ∧ ∃ freed g, buddyFree s.heap ptr = some (freed, g) ∧
        t = ⟨g, s.live.erase ptr⟩

variable {s t : BuddyRun} {call : BuddyCall} {ok : BuddyRun → BuddyCall → Prop}
  {start size n : ℕ} {g : Heap} {place : ℕ → Place} {F : ℕ → List ℕ}

/-- The live blocks are the ones handed out. -/
structure BuddyInv (s : BuddyRun) (place : ℕ → Place) (F : ℕ → List ℕ) : Prop where
  blocks : Blocks s.heap place F
  nodup : s.live.Nodup
  live : ∀ p, p ∈ s.live ↔ ∃ b, place b = .live ∧ p = b + headerSize

theorem buddyInit_inv (g : Heap) (h0 : 0 < start) (hal : blockBytes maxOrder ∣ start)
    (hsz : blockBytes maxOrder ≤ size) (hw : size < wordSize) :
    BuddyInv ⟨buddyInit g start size, []⟩ (update (fun _ => .outside) start (.free maxOrder))
      (update (fun _ => []) maxOrder [start]) := by
  have hhdr := headerSize_lt maxOrder
  have hpay : (size + wordSize - headerSize) % wordSize = size - headerSize := by
    simp only [wordSize, headerSize] at *
    omega
  have hsized : Sized (update g.size start (size - headerSize)) start maxOrder := by
    refine ⟨hal, fun h => absurd h (lt_irrefl _), ?_, le_rfl⟩
    rw [Function.update_self]
    omega
  have horder : getOrder ((size - headerSize + headerSize) % wordSize) = maxOrder := by
    have hself := hsized.getOrder
    rw [Function.update_self] at hself
    rw [Nat.mod_eq_of_lt (by omega)]
    exact hself
  have hinit : buddyInit g start size = { g with
      memoryStart := start
      totalSize := size
      size := update g.size start (size - headerSize)
      userSize := update g.userSize start 0
      isFree := update g.isFree start true
      next := update g.next start 0
      freeBlocks := update (fun i => if i ≤ maxOrder then 0 else g.freeBlocks i) maxOrder start } := by
    simp only [buddyInit, hpay, Function.update_self, horder]
  have honly : ∀ x, update (fun _ => Place.outside) start (.free maxOrder) x ≠ .outside →
      x = start := by
    intro x hx
    by_contra hne
    exact hx (by simp [hne])
  rw [hinit]
  refine ⟨⟨?_, ?_, ?_, ?_, ?_, ?_, ?_, ?_, h0, hw⟩, by simp, ?_⟩
  · intro k hk
    rcases eq_or_ne k maxOrder with rfl | hne
    · simp [Chain, h0.ne']
    · simp [Chain, hne, hk]
  · intro k hk
    rcases eq_or_ne k maxOrder with rfl | hne
    · simp
    · simp [hne]
  · intro k hk x
    rcases eq_or_ne k maxOrder with rfl | hne <;> rcases eq_or_ne x start with rfl | hx
    · simp
    · simp [hx]
    · simp [hne, Ne.symm hne]
    · simp [hne, hx]
  · intro x k hx
    obtain rfl := honly x (by simp [hx])
    obtain rfl : maxOrder = k := by simpa using hx
    exact hsized
  · intro x k hx
    obtain rfl := honly x (by simp [hx])
    simp
  · intro x hx
    obtain rfl := honly x (by simp [hx])
    simp at hx
  · intro x hx
    obtain rfl := honly x hx
    simp only [Function.update_self]
    omega
  · intro x y hx hy hxy
    exact absurd ((honly x hx).trans (honly y hy).symm) hxy
  · intro p
    constructor
    · simp
    · rintro ⟨x, hx, -⟩
      obtain rfl := honly x (by simp [hx])
      simp at hx

/-- The malloc does not cut a block of the top order that is larger than that. -/
def CutsExactly (s : BuddyRun) : BuddyCall → Prop
  | .malloc n => n = 0 ∨ requestOrder n = maxOrder ∨
      (∃ k < maxOrder, requestOrder n ≤ k ∧ s.heap.freeBlocks k ≠ 0) ∨ s.heap.freeBlocks maxOrder = 0 ∨
      s.heap.size (s.heap.freeBlocks maxOrder) + headerSize = blockBytes maxOrder
  | .free _ => True

/-- Then the block it takes has the size of its order, or is not cut. -/
theorem CutsExactly.exact (h : Blocks g place F) {live : List ℕ} (hcut : CutsExactly ⟨g, live⟩ (.malloc n))
    (h0 : n ≠ 0) {cur b : ℕ} {T : List ℕ} (hcur : requestOrder n ≤ cur) (hmax : cur ≤ maxOrder)
    (hempty : ∀ j, requestOrder n ≤ j → j < cur → F j = []) (hF : F cur = b :: T) :
    requestOrder n = cur ∨ g.size b + headerSize = blockBytes cur := by
  have hsized := h.free_sized b cur ((h.mem cur hmax b).mp (by simp [hF]))
  rcases Nat.eq_or_lt_of_le hmax with rfl | hlt
  · have hhead : g.freeBlocks maxOrder = b := by
      rw [(h.list maxOrder le_rfl).head_eq, hF]
      rfl
    rcases hcut with hz | hreq | ⟨k, hk, hreq, hne⟩ | hzero | hsz
    · exact absurd hz h0
    · exact Or.inl hreq
    · exact absurd ((h.list k hk.le).nil_iff.mpr (hempty k hreq hk)) hne
    · have hb := h.pos (b := b) (by simp [(h.mem maxOrder le_rfl b).mp (by simp [hF])])
      exact absurd (hhead.symm.trans hzero) hb
    · exact Or.inr (hhead ▸ hsz)
  · exact Or.inr (hsized.eq hlt)

/-- A block of the top order begins at the start of the region, and the others have the
size of their order. -/
theorem Blocks.within (h : Blocks g place F) {cur b x : ℕ} (hcur : cur ≤ maxOrder)
    (hb : b ∈ F cur) (hx : x < g.memoryStart + blockBytes maxOrder) :
    g.size b + headerSize = blockBytes cur ∨ x < b + blockBytes cur := by
  have hfree := (h.mem cur hcur b).mp hb
  rcases Nat.eq_or_lt_of_le hcur with rfl | hlt
  · have hlow := (h.inside b (by simp [hfree])).1
    omega
  · exact Or.inl ((h.free_sized b cur hfree).eq hlt)

theorem buddyStep_inv (h : BuddyInv s place F) (hst : (buddySystem start size).step s call t) :
    ∃ place' F', BuddyInv t place' F' ∧
      (∀ x, CutsExactly s call ∨ x < s.heap.memoryStart + blockBytes maxOrder →
        Covered s.heap place x → Covered t.heap place' x) ∧
      (Coalesced s.heap place F → Coalesced t.heap place' F') := by
  cases call with
  | malloc n =>
    obtain ⟨-, ptr, g, hrun, rfl⟩ := hst
    by_cases hnull : n = 0 ∨ ∀ j, requestOrder n ≤ j → j ≤ maxOrder → F j = []
    · have hsame := hrun.symm.trans (buddyMalloc_null h.blocks hnull)
      obtain ⟨rfl, rfl⟩ : ptr = 0 ∧ g = s.heap := by simpa using hsame
      exact ⟨place, F, by simpa using h, fun _ _ => id, id⟩
    · push Not at hnull
      obtain ⟨h0, hsome⟩ := hnull
      obtain ⟨cur, b, T, g', place', F', hcur, hmax, hempty, hF, hrun', hB, hlive, hnew, -, -, hcov, hcoal⟩ :=
        buddyMalloc_spec h.blocks h0 hsome
      obtain ⟨rfl, rfl⟩ : ptr = b + headerSize ∧ g = g' := by simpa using hrun.symm.trans hrun'
      have hptr : b + headerSize ≠ 0 := by simp [headerSize]
      refine ⟨place', F', ⟨hB, ?_, fun p => ?_⟩, fun x hx => hcov x ?_, hcoal⟩
      · rw [if_neg hptr, List.nodup_cons]
        refine ⟨fun hm => ?_, h.nodup⟩
        obtain ⟨c, hc, hbc⟩ := (h.live _).mp hm
        obtain rfl : b = c := by omega
        exact hnew hc
      · rw [if_neg hptr, List.mem_cons, h.live]
        constructor
        · rintro (rfl | ⟨c, hc, rfl⟩)
          · exact ⟨b, (hlive b).mpr (Or.inr rfl), rfl⟩
          · exact ⟨c, (hlive c).mpr (Or.inl hc), rfl⟩
        · rintro ⟨c, hc, rfl⟩
          rcases (hlive c).mp hc with hc | rfl
          · exact Or.inr ⟨c, hc, rfl⟩
          · exact Or.inl rfl
      · rcases hx with hcut | hx
        · exact or_assoc.mp (Or.inl (hcut.exact h.blocks h0 hcur hmax hempty hF))
        · exact Or.inr (h.blocks.within hmax (by simp [hF]) hx)
  | free ptr =>
    obtain ⟨hptr, freed, g, hrun, rfl⟩ := hst
    obtain ⟨b, hb, rfl⟩ := (h.live ptr).mp hptr
    obtain ⟨freed', g', place', F', hrun', hB, hlive, hcov, hcoal⟩ := buddyFree_spec h.blocks hb
    obtain ⟨rfl, rfl⟩ : freed = freed' ∧ g = g' := by simpa using hrun.symm.trans hrun'
    refine ⟨place', F', ⟨hB, h.nodup.erase _, fun p => ?_⟩, fun x _ => hcov x, hcoal⟩
    rw [h.nodup.mem_erase_iff, h.live]
    constructor
    · rintro ⟨hne, c, hc, rfl⟩
      have hcb : c ≠ b := by rintro rfl; exact hne rfl
      exact ⟨c, (hlive c).mpr ⟨hc, hcb⟩, rfl⟩
    · rintro ⟨c, hc, rfl⟩
      obtain ⟨hc, hcb⟩ := (hlive c).mp hc
      exact ⟨by simpa using hcb, c, hc, rfl⟩

/-- The blocks stay in place in every run. -/
theorem buddyRun_inv (h0 : 0 < start) (hal : blockBytes maxOrder ∣ start)
    (hsz : blockBytes maxOrder ≤ size) (hw : size < wordSize)
    (h : (buddySystem start size).Reach ok s) : ∃ place F, BuddyInv s place F := by
  apply h.invariant (I := fun s => ∃ place F, BuddyInv s place F)
  · rintro _ ⟨g, rfl⟩
    exact ⟨_, _, buddyInit_inv g h0 hal hsz hw⟩
  · rintro s call t ⟨place, F, hinv⟩ - hst
    obtain ⟨place', F', hinv', -⟩ := buddyStep_inv hinv hst
    exact ⟨place', F', hinv'⟩

/-! ### What a malloc returns -/

/-- The block is on the free list of order `k`. -/
def OnList (g : Heap) (k b : ℕ) : Prop := ∃ L, Chain g.next 0 (g.freeBlocks k) L ∧ b ∈ L

theorem Blocks.onList {k b : ℕ} (h : Blocks g place F) (hk : k ≤ maxOrder) :
    OnList g k b ↔ b ∈ F k := by
  constructor
  · rintro ⟨L, hL, hb⟩
    rwa [(h.list k hk).unique hL]
  · exact fun hb => ⟨F k, h.list k hk, hb⟩

/-- The call fails only when no free block holds `size` bytes, and then changes
nothing; otherwise it returns a block taken off its list that holds them. -/
structure ReturnsFitting (g : Heap) (size : ℕ) : Prop where
  null : (buddyMalloc g size).1 = 0 ↔
    size = 0 ∨ ∀ k ≤ maxOrder, ∀ b, OnList g k b → g.size b < size
  same : (buddyMalloc g size).1 = 0 → (buddyMalloc g size).2 = g
  block : (buddyMalloc g size).1 ≠ 0 → ∃ b, (buddyMalloc g size).1 = b + headerSize ∧
    (∃ k ≤ maxOrder, OnList g k b) ∧ (∀ k ≤ maxOrder, ¬OnList (buddyMalloc g size).2 k b) ∧
    size ≤ (buddyMalloc g size).2.size b

/-- The request fits the top order; or it is larger and the first block of the top
order holds it or there is none; or adding the header wraps and nothing is free. -/
def RequestFits (g : Heap) (size : ℕ) : Prop :=
  size = 0 ∨ size + headerSize ≤ blockBytes maxOrder ∨
    (size + headerSize < wordSize ∧
      (g.freeBlocks maxOrder = 0 ∨ size ≤ g.size (g.freeBlocks maxOrder))) ∨
    (wordSize ≤ size + headerSize ∧ ∀ k ≤ maxOrder, g.freeBlocks k = 0)

theorem returnsFitting_null (h : Blocks g place F) (hrun : buddyMalloc g size = (0, g)) :
    ReturnsFitting g size ↔ size = 0 ∨ ∀ k ≤ maxOrder, ∀ b ∈ F k, g.size b < size := by
  have hlists : (∀ k ≤ maxOrder, ∀ b, OnList g k b → g.size b < size) ↔
      ∀ k ≤ maxOrder, ∀ b ∈ F k, g.size b < size :=
    forall₂_congr fun k hk => forall_congr' fun b => by rw [h.onList hk]
  constructor
  · intro hfit
    have hnull := hfit.null.mp (by rw [hrun])
    rwa [hlists] at hnull
  · intro hnull
    refine ⟨?_, by simp [hrun], by simp [hrun]⟩
    rw [hrun, hlists]
    exact ⟨fun _ => hnull, fun _ => rfl⟩

theorem returnsFitting_block (h : Blocks g place F) {cur b : ℕ} {g' : Heap} {place' : ℕ → Place}
    {F' : ℕ → List ℕ} (h0 : size ≠ 0) (hcur : cur ≤ maxOrder) (hb : b ∈ F cur)
    (hrun : buddyMalloc g size = (b + headerSize, g')) (h' : Blocks g' place' F')
    (hlive : place' b = .live) :
    ReturnsFitting g size ↔
      size ≤ g'.size b ∧ ∃ k ≤ maxOrder, ∃ x ∈ F k, size ≤ g.size x := by
  have hne : b + headerSize ≠ 0 := by simp [headerSize]
  constructor
  · intro hfit
    refine ⟨?_, ?_⟩
    · obtain ⟨c, hc, -, -, hsz⟩ := hfit.block (by rwa [hrun])
      rw [hrun] at hc hsz
      obtain rfl : c = b := by
        simp only at hc
        omega
      exact hsz
    · have hnull := hfit.null.not.mp (by rwa [hrun])
      push Not at hnull
      obtain ⟨-, k, hk, x, hx, hsz⟩ := hnull
      exact ⟨k, hk, x, (h.onList hk).mp hx, hsz⟩
  · rintro ⟨hsz, k, hk, x, hx, hxsz⟩
    refine ⟨?_, fun hz => absurd hz (by rwa [hrun]), fun _ => ⟨b, by rw [hrun], ?_, ?_, ?_⟩⟩
    · rw [hrun]
      refine ⟨fun hz => absurd hz hne, ?_⟩
      rintro (hz | hall)
      · exact absurd hz h0
      · exact absurd (hall k hk x ((h.onList hk).mpr hx)) (not_lt.mpr hxsz)
    · exact ⟨cur, hcur, (h.onList hcur).mpr hb⟩
    · intro j hj hm
      rw [hrun] at hm
      have hfree := (h'.mem j hj b).mp ((h'.onList hj).mp hm)
      rw [hlive] at hfree
      simp at hfree
    · rw [hrun]
      exact hsz

/-- Free blocks below the order of the request are too small for it. -/
theorem Blocks.size_lt (h : Blocks g place F) {j b : ℕ} (hb : b ∈ F j) (hj : j ≤ maxOrder)
    (hlt : j < getOrder (size + headerSize)) : g.size b < size := by
  have hsized := h.free_sized b j ((h.mem j hj b).mp hb)
  have heq := hsized.eq (hlt.trans_le (getOrder_le _))
  have hbig := blockBytes_lt_of_lt_getOrder hlt
  omega

/-- A request of at most the top order is met. -/
theorem returnsFitting_of_le (h : Blocks g place F) (hsz : size + headerSize ≤ blockBytes maxOrder) :
    ReturnsFitting g size := by
  have hword : size + headerSize < wordSize := by
    rw [blockBytes_maxOrder] at hsz
    simp only [wordSize]
    omega
  have horder : requestOrder size = getOrder (size + headerSize) := by
    rw [requestOrder, Nat.mod_eq_of_lt hword]
  have hfits : size + headerSize ≤ blockBytes (requestOrder size) := by
    rw [horder]
    rcases Nat.lt_or_ge (getOrder (size + headerSize)) maxOrder with hlt | hge
    · exact le_blockBytes_getOrder hlt
    · exact hsz.trans (blockBytes_mono hge)
  by_cases hnull : size = 0 ∨ ∀ j, requestOrder size ≤ j → j ≤ maxOrder → F j = []
  · rw [returnsFitting_null h (buddyMalloc_null h hnull)]
    refine hnull.imp_right fun hempty k hk b hb => ?_
    apply h.size_lt hb hk
    by_contra hge
    rw [← horder, not_lt] at hge
    rw [hempty k hge hk] at hb
    simp at hb
  · push Not at hnull
    obtain ⟨h0, hsome⟩ := hnull
    obtain ⟨cur, b, T, g', place', F', hcur, hmax, -, hF, hrun, hB, hlive, -, hsized, -⟩ :=
      buddyMalloc_spec h h0 hsome
    have hb : b ∈ F cur := by simp [hF]
    rw [returnsFitting_block h h0 hmax hb hrun hB ((hlive b).mpr (Or.inr rfl))]
    have hleast := hsized.least
    have hbs := (h.free_sized b cur ((h.mem cur hmax b).mp hb)).least
    have hmono := blockBytes_mono hcur
    exact ⟨by omega, cur, hmax, b, hb, by omega⟩

/-- A larger request is met when the first block of the top order holds it. -/
theorem returnsFitting_of_gt (h : Blocks g place F) (hsz : blockBytes maxOrder < size + headerSize)
    (hword : size + headerSize < wordSize) : ReturnsFitting g size ↔
      g.freeBlocks maxOrder = 0 ∨ size ≤ g.size (g.freeBlocks maxOrder) := by
  have h0 : size ≠ 0 := by
    rintro rfl
    exact absurd hsz (by decide)
  have hget : getOrder (size + headerSize) = maxOrder := by
    rcases Nat.lt_or_ge (getOrder (size + headerSize)) maxOrder with hlt | hge
    · have hle := (le_blockBytes_getOrder hlt).trans (blockBytes_mono hlt.le)
      exact absurd hle (not_le.mpr hsz)
    · exact le_antisymm (getOrder_le _) hge
  have horder : requestOrder size = maxOrder := by
    rw [requestOrder, Nat.mod_eq_of_lt hword, hget]
  by_cases hhead : g.freeBlocks maxOrder = 0
  · have hempty := (h.list maxOrder le_rfl).nil_iff.mp hhead
    have hnull : ∀ j, requestOrder size ≤ j → j ≤ maxOrder → F j = [] := by
      intro j hj hjm
      obtain rfl : j = maxOrder := by omega
      exact hempty
    rw [returnsFitting_null h (buddyMalloc_null h (Or.inr hnull))]
    simp only [hhead, true_or, iff_true]
    refine Or.inr fun k hk b hb => h.size_lt hb hk ?_
    rw [hget]
    apply lt_of_le_of_ne hk
    rintro rfl
    simp [hempty] at hb
  · obtain ⟨T, hF, -⟩ := (h.list maxOrder le_rfl).of_ne hhead
    have hsome : ∃ j, requestOrder size ≤ j ∧ j ≤ maxOrder ∧ F j ≠ [] :=
      ⟨maxOrder, horder.le, le_rfl, by simp [hF]⟩
    obtain ⟨cur, b, T', g', place', F', hcur, hmax, -, hF', hrun, hB, hlive, -, -, hsame, -⟩ :=
      buddyMalloc_spec h h0 hsome
    obtain rfl : cur = maxOrder := by omega
    obtain rfl : g.freeBlocks maxOrder = b := by
      rw [hF] at hF'
      exact (List.cons_eq_cons.mp hF').1
    rw [returnsFitting_block h h0 le_rfl (by simp [hF]) hrun hB ((hlive _).mpr (Or.inr rfl)),
      hsame horder.symm]
    simp only [hhead, false_or, and_iff_left_iff_imp]
    exact fun hle => ⟨maxOrder, le_rfl, _, by simp [hF], hle⟩

/-- A request that wraps is met only when nothing is free. -/
theorem returnsFitting_of_wrap (h : Blocks g place F) (hsize : size < wordSize)
    (hwrap : wordSize ≤ size + headerSize) : ReturnsFitting g size ↔
      ∀ k ≤ maxOrder, g.freeBlocks k = 0 := by
  have h0 : size ≠ 0 := by
    rintro rfl
    exact absurd hwrap (by decide)
  have horder : requestOrder size = 0 := by
    have hmod : (size + headerSize) % wordSize < minBlockSize := by
      simp only [wordSize, headerSize, minBlockSize] at *
      omega
    by_contra hne
    have hlt := blockBytes_lt_of_lt_getOrder (Nat.pos_of_ne_zero hne)
    exact absurd (hlt.trans hmod) (lt_irrefl _)
  by_cases hnull : ∀ j, requestOrder size ≤ j → j ≤ maxOrder → F j = []
  · have hzero : ∀ k ≤ maxOrder, F k = [] := fun k hk => hnull k (by omega) hk
    rw [returnsFitting_null h (buddyMalloc_null h (Or.inr hnull))]
    constructor
    · exact fun _ k hk => (h.list k hk).nil_iff.mpr (hzero k hk)
    · exact fun _ => Or.inr fun k hk b hb => by simp [hzero k hk] at hb
  · push Not at hnull
    obtain ⟨cur, b, T, g', place', F', -, hmax, -, hF, hrun, hB, hlive, -, -, -⟩ :=
      buddyMalloc_spec h h0 hnull
    have hbl := (hlive b).mpr (Or.inr rfl)
    rw [returnsFitting_block h h0 hmax (by simp [hF]) hrun hB hbl]
    constructor
    · rintro ⟨hsz, -⟩
      have hin := (hB.inside b (by simp [hbl])).2
      have hsmall := hB.small
      have hstart := (hB.inside b (by simp [hbl])).1
      omega
    · intro hzero
      have hempty := (h.list cur hmax).nil_iff.mp (hzero cur hmax)
      rw [hF] at hempty
      simp at hempty

/-- The region the kernel sets up. -/
def kernelStart : ℕ := 0x600000

def kernelSize : ℕ := 0x200000

theorem kernelRun_inv (h : (buddySystem kernelStart kernelSize).Reach ok s) :
    ∃ place F, BuddyInv s place F :=
  buddyRun_inv (by decide) (by decide) (by decide) (by decide) h

/-- Exactly when a malloc returns what it should. -/
theorem buddy_malloc_fits_iff (h : (buddySystem kernelStart kernelSize).Reach (fun _ _ => True) s)
    (hsize : size < wordSize) : ReturnsFitting s.heap size ↔ RequestFits s.heap size := by
  obtain ⟨place, F, hinv⟩ := kernelRun_inv h
  have hB := hinv.blocks
  by_cases hle : size + headerSize ≤ blockBytes maxOrder
  · exact iff_of_true (returnsFitting_of_le hB hle) (Or.inr (Or.inl hle))
  have h0 : size ≠ 0 := by
    rintro rfl
    exact hle (by decide)
  rcases Nat.lt_or_ge (size + headerSize) wordSize with hword | hwrap
  · rw [returnsFitting_of_gt hB (not_le.mp hle) hword]
    simp [RequestFits, h0, hle, hword, not_le.mpr hword]
  · rw [returnsFitting_of_wrap hB hsize hwrap]
    simp [RequestFits, h0, hle, hwrap, not_lt.mpr hwrap]

/-- A memory of zeros. -/
def zeroHeap : Heap := ⟨fun _ => 0, fun _ => 0, fun _ => false, fun _ => 0, fun _ => 0, 0, 0, 0, 0, 0⟩

def kernelHeap : Heap := buddyInit zeroHeap kernelStart kernelSize

theorem kernelHeap_reach : (buddySystem kernelStart kernelSize).Reach ok ⟨kernelHeap, []⟩ :=
  .init ⟨zeroHeap, rfl⟩

theorem buddy_malloc_fits_hundred : ReturnsFitting kernelHeap 100 :=
  (buddy_malloc_fits_iff kernelHeap_reach (by decide)).mpr (Or.inr (Or.inl (by decide)))

/-- The whole region is asked for, and the first block, smaller by its header, is
returned. -/
theorem buddy_malloc_too_small :
    ∃ s, (buddySystem kernelStart kernelSize).Reach (fun _ _ => True) s ∧
      ∃ size < wordSize, ¬ReturnsFitting s.heap size := by
  refine ⟨⟨kernelHeap, []⟩, kernelHeap_reach, kernelSize, by decide, fun hfit => ?_⟩
  obtain ⟨b, hb, -, -, hsz⟩ := hfit.block (by decide)
  have hptr : (buddyMalloc kernelHeap kernelSize).1 = kernelStart + headerSize := by decide
  obtain rfl : kernelStart = b := Nat.add_right_cancel (hptr.symm.trans hb)
  exact absurd hsz (by decide)

end BareKernel.Buddy

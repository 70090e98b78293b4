import BareKernel.Memory.GroupRuns

/-! What `group_malloc` returns: the first block of the free list that fits, cut behind the
request. Rounding a request up may wrap; then every block seems to fit. -/

namespace BareKernel.Memory

open Links

variable {g : Group} {s : GroupRun} {lo start size n : ℕ} {L F F' live : List ℕ}

/-- The free list in the order of the search, from its head on. -/
structure FreeOrder (g : Group) (F : List ℕ) : Prop where
  head : F.head?.getD 0 = g.freeList
  null : 0 ∉ F
  nodup : F.Nodup
  ring : Ring (Both g.freeNext g.freePrev) F

/-- A request rounded up to a multiple of eight, without overflow. -/
def roundUp (n : ℕ) : ℕ := (n + 7) / 8 * 8

/-- The block `cur` has been handed out for a request of `n` bytes: it has left the free
list, and what was cut off is a free block right after it. -/
structure HandedOut (g g' : Group) (cur n : ℕ) (F : List ℕ) : Prop where
  taken : g'.isFree cur = false
  user : g'.userSize cur = n
  large : n ≤ g'.size cur
  list : ∃ F', Cuts g g' cur (roundUp n) F F' ∧ FreeOrder g' (F'.erase cur) ∧ cur ∉ F'.erase cur

/-- The call returns `NULL` and changes nothing when the request is empty, too many blocks
are live or no free block fits; else it hands out the first free block that fits. -/
def MallocFits (g : Group) (n : ℕ) : Prop :=
  ∃ F, FreeOrder g F ∧
    if n = 0 ∨ maxBlocks ≤ g.currentBlocks ∨ ∀ b ∈ F, g.size b < roundUp n then groupMalloc g n = some (0, g)
    else ∃ cur g', F.find? (fun b => roundUp n ≤ g.size b) = some cur ∧
      groupMalloc g n = some (cur + headerSize, g') ∧ HandedOut g g' cur n F

/-- Rounding up does not wrap, or nothing can be handed out. -/
def RoundsUp (g : Group) (n : ℕ) : Prop := n + 8 ≤ wordSize ∨ g.freeList = 0 ∨ maxBlocks ≤ g.currentBlocks

theorem alignUp_roundUp (h : n + 8 ≤ wordSize) : alignUp n = roundUp n := by
  unfold alignUp roundUp
  rw [Nat.mod_eq_of_lt (by omega)]

theorem alignUp_wraps (h : wordSize < n + 8) (hn : n < wordSize) : alignUp n = 0 := by
  simp only [alignUp, wordSize] at *
  omega

theorem le_roundUp (n : ℕ) : n ≤ roundUp n := by
  unfold roundUp
  omega

theorem FreeList.order (h : FreeList g L F) (hs : Shape g lo L) : FreeOrder g F :=
  ⟨h.head, h.zero_notMem hs, h.nodup, h.ring⟩

theorem FreeOrder.eq_nil (h : FreeOrder g F) : F = [] ↔ g.freeList = 0 := by
  rw [← h.head]
  cases F with
  | nil => simp
  | cons b F =>
    have hb : b ≠ 0 := fun he => h.null (by simp [he])
    simp [hb]

theorem FreeOrder.unique (h : FreeOrder g F) (h' : FreeOrder g F') : F = F' := by
  cases F with
  | nil => exact (h'.eq_nil.mpr (h.eq_nil.mp rfl)).symm
  | cons b F =>
    cases F' with
    | nil => exact h.eq_nil.mpr (h'.eq_nil.mp rfl)
    | cons b' F' =>
      obtain rfl : b = b' := h.head.trans h'.head.symm
      rw [h.ring.toFwd.unique h'.ring.toFwd h.nodup h'.nodup]

/-- The call as the first block that fits. -/
theorem groupMalloc_eq (h : GroupInv g live lo L F) (n : ℕ) :
    groupMalloc g n = if n = 0 ∨ maxBlocks ≤ g.currentBlocks then some (0, g)
      else match F.find? fun b => alignUp n ≤ g.size b with
        | none => some (0, g)
        | some cur => some (cur + headerSize, groupTake g cur (alignUp n) n) := by
  have horder := h.free.order h.shape
  by_cases hfail : n = 0 ∨ maxBlocks ≤ g.currentBlocks
  · have hfail' : n = 0 ∨ g.freeList = 0 ∨ maxBlocks ≤ g.currentBlocks := hfail.imp_right Or.inr
    rw [if_pos hfail, groupMalloc, if_pos hfail']
  · rw [if_neg hfail]
    by_cases hempty : g.freeList = 0
    · rw [horder.eq_nil.mpr hempty]
      simp [groupMalloc, hempty]
    · have hgo : ¬(n = 0 ∨ g.freeList = 0 ∨ maxBlocks ≤ g.currentBlocks) := by tauto
      rw [groupMalloc, if_neg hgo]
      dsimp only
      rw [groupSearch_freeList h.free h.shape hempty]
      cases hfind : F.find? fun b => alignUp n ≤ g.size b with
      | none => rfl
      | some cur =>
        have hcur : cur ≠ 0 := fun he => horder.null (he ▸ List.mem_of_find?_eq_some hfind)
        simp [hcur]

theorem groupTake_handedOut (h : GroupInv g live lo L F) {cur : ℕ}
    (hfind : F.find? (fun b => roundUp n ≤ g.size b) = some cur) :
    HandedOut g (groupTake g cur (roundUp n) n) cur n F := by
  have hcur := List.mem_of_find?_eq_some hfind
  have hfit : roundUp n ≤ g.size cur := by simpa using List.find?_some hfind
  have h8 : 8 ∣ roundUp n := Nat.dvd_mul_left ..
  obtain ⟨L', F', hs', hF', hcut, -, hfree, huser, -⟩ := groupTake_spec h.shape h.free hcur hfit h8 n
  have hout : cur ∉ F'.erase cur := fun hm => by simp [((hF'.mem cur).mp hm).2] at hfree
  refine ⟨hfree, huser, ?_, F', hcut, hF'.order hs', hout⟩
  have hle := le_roundUp n
  rcases hcut with ⟨-, hsize, -⟩ | ⟨-, nb, -, hsize, -⟩ <;> omega

/-- In a state of the allocator a malloc fits exactly when its request can be rounded up,
or nothing can be handed out. -/
theorem GroupInv.mallocFits (h : GroupInv g live lo L F) (hn : n < wordSize) : MallocFits g n ↔ RoundsUp g n := by
  have horder := h.free.order h.shape
  have hsmall : ∀ b ∈ F, g.size b < wordSize := by
    intro b hb
    have hsize := h.shape.size_lt ((h.free.mem b).mp hb).1
    have htotal := h.shape.small
    omega
  have heq := groupMalloc_eq h n
  constructor
  · rintro ⟨F', horder', hlaw⟩
    obtain rfl := horder.unique horder'
    by_contra hno
    simp only [RoundsUp, not_or, not_le] at hno
    obtain ⟨hwrap, hne, hblocks⟩ := hno
    have h0 : n ≠ 0 := by
      simp only [wordSize] at hwrap
      omega
    -- no free block is that large, but the call hands out the first one
    have hround : wordSize ≤ roundUp n := by
      simp only [roundUp, wordSize] at *
      omega
    rw [if_pos (Or.inr (Or.inr fun b hb => (hsmall b hb).trans_le hround))] at hlaw
    rw [if_neg (by simp [h0, hblocks]), alignUp_wraps hwrap hn] at heq
    cases hF : F with
    | nil => exact hne (horder.eq_nil.mp hF)
    | cons b B =>
      rw [hF] at heq
      simp [hlaw, headerSize] at heq
  · intro hr
    refine ⟨F, horder, ?_⟩
    by_cases hfail : n = 0 ∨ maxBlocks ≤ g.currentBlocks
    · rw [if_pos (or_assoc.mp (Or.inl hfail)), heq, if_pos hfail]
    · rw [if_neg hfail] at heq
      rcases hr with hr | hempty | hfull
      · rw [alignUp_roundUp hr] at heq
        cases hfind : F.find? fun b => roundUp n ≤ g.size b with
        | none =>
          have hnone : ∀ b ∈ F, g.size b < roundUp n := by simpa using hfind
          rw [if_pos (Or.inr (Or.inr hnone)), heq, hfind]
        | some cur =>
          have hfit : roundUp n ≤ g.size cur := by simpa using List.find?_some hfind
          have hgo : ¬(n = 0 ∨ maxBlocks ≤ g.currentBlocks ∨ ∀ b ∈ F, g.size b < roundUp n) := by
            rw [← or_assoc, not_or]
            exact ⟨hfail, fun hall => absurd (hall cur (List.mem_of_find?_eq_some hfind)) (not_lt.mpr hfit)⟩
          rw [if_neg hgo, heq, hfind]
          exact ⟨cur, _, rfl, rfl, groupTake_handedOut h hfind⟩
      · rw [horder.eq_nil.mpr hempty] at heq ⊢
        rw [if_pos (by simp), heq]
        rfl
      · exact absurd (Or.inr hfull) hfail

/-- In every state of every run. -/
theorem group_malloc_fits_iff (h8 : 8 ∣ size) (hsz : headerSize < size) (hw : size < wordSize)
    (h : (groupSystem start size).Reach (fun _ _ => True) s) (hn : n < wordSize) :
    MallocFits s.heap n ↔ RoundsUp s.heap n := by
  rcases Nat.eq_zero_or_pos start with rfl | h0
  · obtain ⟨g, rfl⟩ := groupRun_null h
    have hempty : (groupInit g 0 size).freeList = 0 := by simp [groupInit, insertIntoFreeList]
    refine iff_of_true ⟨[], ⟨?_, by simp, by simp, ring_nil⟩, ?_⟩ (Or.inr (Or.inl hempty))
    · exact hempty.symm
    · simp [groupMalloc, hempty]
  · obtain ⟨lo, L, F, hinv⟩ := groupRun_inv h0 h8 hsz hw h
    exact hinv.mallocFits hn

theorem group_malloc_fits_hundred : MallocFits twoBlocks 100 :=
  (group_malloc_fits_iff (s := ⟨twoBlocks, [128, 64]⟩) (by decide) (by decide) (by decide)
    (twoBlocks_reach.mono fun _ _ _ => trivial) (by decide)).mpr (Or.inl (by decide))

/-- A request of `2 ^ 64 - 1` bytes is rounded up to none, and the first free block is
handed out for it. -/
theorem group_malloc_wraps :
    (groupSystem 8 512).Reach (fun _ _ => True) ⟨twoBlocks, [128, 64]⟩ ∧ ¬MallocFits twoBlocks (2 ^ 64 - 1) := by
  have hreach : (groupSystem 8 512).Reach (fun _ _ => True) ⟨twoBlocks, [128, 64]⟩ :=
    twoBlocks_reach.mono fun _ _ _ => trivial
  refine ⟨hreach, fun hfits => ?_⟩
  obtain ⟨lo, L, F, hinv⟩ := groupRun_inv (by decide) (by decide) (by decide) (by decide) hreach
  have hround : RoundsUp twoBlocks (2 ^ 64 - 1) := (hinv.mallocFits (by decide)).mp hfits
  revert hround
  unfold RoundsUp
  decide

end BareKernel.Memory

import BareKernel.Memory.GroupRuns

/-! The books of the group allocator: what `group_get_info` reports. In every run
the free list holds each free block once, free neighbours are merged, and the
walk over the free list ends with the bytes that no live block takes up. -/

namespace BareKernel.Memory

open Links

structure MemoryInfo where
  totalMemory : ℕ
  usedMemory : ℕ
  freeMemory : ℕ
  blockCount : ℕ
  freeBlockCount : ℕ
  totalAllocated : ℕ
  totalFreed : ℕ
  currentBlocks : ℕ
  memoryLeak : Bool

/-- The walk over the free list from `cur` on, with `freeMem` and `freeBlocks` so
far; `none` when the fuel runs out. -/
def groupInfoLoop (g : Group) : ℕ → ℕ → ℕ → ℕ → Option (ℕ × ℕ)
  | 0, _, _, _ => none
  | fuel + 1, cur, freeMem, freeBlocks =>
    let freeMem := (freeMem + (g.size cur + headerSize)) % wordSize
    let freeBlocks := (freeBlocks + 1) % wordSize
    let cur := g.freeNext cur
    if cur ≠ g.freeList then groupInfoLoop g fuel cur freeMem freeBlocks
    else some (freeMem, freeBlocks)

/-- `none` if the walk never comes back to the head of the free list. -/
def groupGetInfo (g : Group) : Option MemoryInfo :=
  let walk := if g.freeList ≠ 0 then groupInfoLoop g g.totalSize g.freeList 0 0 else some (0, 0)
  walk.map fun (freeMem, freeBlocks) =>
    { totalMemory := g.totalSize
      usedMemory := (g.totalSize + wordSize - freeMem) % wordSize
      freeMemory := freeMem
      blockCount := (freeBlocks + g.currentBlocks) % wordSize
      freeBlockCount := freeBlocks
      totalAllocated := g.totalAllocated
      totalFreed := g.totalFreed
      currentBlocks := g.currentBlocks
      memoryLeak := g.totalAllocated != g.totalFreed }

variable {g : Group} {s : GroupRun} {lo b start size : ℕ} {A B L F live : List ℕ}

/-- The bytes of the blocks of `L` with their headers. -/
def bytes (g : Group) (L : List ℕ) : ℕ := (L.map fun b => g.size b + headerSize).sum

@[simp] theorem bytes_nil : bytes g [] = 0 := rfl

@[simp] theorem bytes_cons : bytes g (b :: L) = g.size b + headerSize + bytes g L := by
  simp [bytes]

theorem bytes_perm (h : A.Perm B) : bytes g A = bytes g B := (h.map _).sum_nat

theorem length_le_bytes (g : Group) (L : List ℕ) : L.length ≤ bytes g L := by
  induction L with
  | nil => simp
  | cons b L ih =>
    simp only [List.length_cons, bytes_cons, headerSize]
    omega

theorem bytes_partition (g : Group) (L : List ℕ) :
    bytes g (L.filter fun b => g.isFree b) + bytes g (L.filter fun b => !g.isFree b) = bytes g L := by
  induction L with
  | nil => rfl
  | cons b L ih =>
    cases hb : g.isFree b <;> simp only [List.filter_cons, hb, bytes_cons, Bool.not_true,
      Bool.not_false, if_true, Bool.false_eq_true, if_false] <;> omega

/-- The walk adds up what is left of the free list. -/
theorem groupInfoLoop_eq (h : FreeList g L (A ++ b :: B)) {fuel m n : ℕ} (hf : B.length < fuel)
    (hm : m + bytes g (b :: B) < wordSize) (hn : n + (b :: B).length < wordSize) :
    groupInfoLoop g fuel b m n = some (m + bytes g (b :: B), n + (b :: B).length) := by
  induction B generalizing A b fuel m n with
  | nil =>
    obtain ⟨fuel, rfl⟩ := Nat.exists_eq_succ_of_ne_zero (by omega : fuel ≠ 0)
    simp only [bytes_cons, bytes_nil, List.length_singleton, Nat.add_zero] at hm hn ⊢
    simp [groupInfoLoop, h.next_last, Nat.mod_eq_of_lt hm, Nat.mod_eq_of_lt hn]
  | cons c B ih =>
    obtain ⟨fuel, rfl⟩ := Nat.exists_eq_succ_of_ne_zero (by omega : fuel ≠ 0)
    obtain ⟨hbc, hcl⟩ := h.next_mid
    rw [bytes_cons] at hm ⊢
    rw [List.length_cons] at hf hn ⊢
    have hm' : m + (g.size b + headerSize) < wordSize := by omega
    have hn' : n + 1 < wordSize := by omega
    have hlist : FreeList g L ((A ++ [b]) ++ c :: B) := by simpa using h
    rw [groupInfoLoop, hbc]
    simp only [hcl, ne_eq, not_false_eq_true, if_true, Nat.mod_eq_of_lt hm', Nat.mod_eq_of_lt hn']
    rw [ih hlist (by omega) (by omega) (by omega)]
    simp only [Option.some.injEq, Prod.mk.injEq]
    omega

theorem FreeList.perm (h : FreeList g L F) (hL : L.Nodup) : F.Perm (L.filter fun b => g.isFree b) :=
  (List.perm_ext_iff_of_nodup h.nodup (hL.filter _)).mpr fun b => by simp [h.mem]

theorem GroupInv.perm (h : GroupInv g live lo L F) :
    live.Perm ((L.filter fun b => !g.isFree b).map (· + headerSize)) := by
  have hinj : Function.Injective fun b : ℕ => b + headerSize := fun a b hab => Nat.add_right_cancel hab
  refine (List.perm_ext_iff_of_nodup h.nodup ((h.shape.tiles.nodup.filter _).map hinj)).mpr fun p => ?_
  rw [h.live]
  simp only [List.mem_map, List.mem_filter, Bool.not_eq_true', and_assoc, eq_comm (a := p)]

/-- Free blocks and live blocks together fill the region. -/
theorem GroupInv.bytes_eq (h : GroupInv g live lo L F) :
    bytes g F + bytes g (live.map (· - headerSize)) = g.totalSize := by
  have hall : bytes g L = g.totalSize := by
    have := h.shape.tiles.sum_eq
    unfold bytes
    omega
  have hlive : (live.map (· - headerSize)).Perm (L.filter fun b => !g.isFree b) := by
    refine (h.perm.map _).trans ?_
    simp [List.map_map, Function.comp_def]
  rw [bytes_perm (h.free.perm h.shape.tiles.nodup), bytes_perm hlive, bytes_partition, hall]

/-- The walk of `groupGetInfo` ends and reports the free list. -/
theorem groupGetInfo_spec (h : GroupInv g live lo L F) : ∃ info, groupGetInfo g = some info ∧
    info.freeMemory = bytes g F ∧ info.freeBlockCount = F.length := by
  have hle : bytes g F ≤ g.totalSize := by
    have := h.bytes_eq
    omega
  have hlen := length_le_bytes g F
  have hsmall := h.shape.small
  have hhead := h.free.head
  rcases F with _ | ⟨f, F⟩
  · simp only [List.head?_nil, Option.getD_none] at hhead
    simp only [groupGetInfo, ← hhead, ne_eq, not_true_eq_false, if_false, Option.map_some]
    exact ⟨_, rfl, rfl, rfl⟩
  · simp only [List.head?_cons, Option.getD_some] at hhead
    have hf0 : f ≠ 0 := fun he => h.free.zero_notMem h.shape (by simp [he])
    have hfuel : F.length < g.totalSize := by
      simp only [List.length_cons] at hlen
      omega
    have hwalk : groupInfoLoop g g.totalSize f 0 0 = some (0 + bytes g (f :: F), 0 + (f :: F).length) :=
      groupInfoLoop_eq (A := []) h.free hfuel (by omega) (by omega)
    rw [Nat.zero_add, Nat.zero_add] at hwalk
    simp only [groupGetInfo, ← hhead, ne_eq, hf0, not_false_eq_true, if_true, hwalk, Option.map_some]
    exact ⟨_, rfl, rfl, rfl⟩

/-- A ring of free blocks without free neighbours has one block. -/
theorem GroupInv.eq_singleton (h : GroupInv g live lo L F) (hc : Coalesced g L) (hlive : live = []) :
    L = [lo] := by
  have hfree : ∀ b ∈ L, g.isFree b = true := by
    intro b hb
    by_contra hf
    have hm := h.mem_live.mpr ⟨hb, Bool.eq_false_iff.mpr hf⟩
    simp [hlive] at hm
  obtain ⟨b, B, rfl⟩ := List.exists_cons_of_ne_nil h.shape.ne_nil
  have hb : b ∈ b :: B := List.mem_cons_self
  have hnext := h.shape.ring.fwd_mem hb
  have hone := hc b hb (hfree b hb) (hfree _ hnext.1)
  rw [h.shape.head]
  exact h.shape.ring.toFwd.eq_singleton h.shape.tiles.nodup hb hone

/-! ### Every run -/

theorem groupRun_counted (h0 : 0 < start) (h8 : 8 ∣ size) (hsz : headerSize < size)
    (hw : size < wordSize) (h : (groupSystem start size).Reach (fun _ _ => True) s) :
    s.heap.totalSize = size ∧ ∃ lo L F, GroupInv s.heap s.live lo L F ∧ Counted s L := by
  refine h.invariant (I := fun s => s.heap.totalSize = size ∧
    ∃ lo L F, GroupInv s.heap s.live lo L F ∧ Counted s L) ?_ ?_
  · rintro _ ⟨g, rfl⟩
    refine ⟨by simp [groupInit], start, [start], [start], groupInit_inv g h0 h8 hsz hw, ?_, ?_, ?_⟩
    · simp [Coalesced, groupInit]
    · simp [groupInit]
    · simp
  · rintro s call t ⟨hsize, lo, L, F, hinv, hc⟩ - hst
    obtain ⟨lo', L', F', hinv', -, ht, hc', -⟩ := groupStep_spec hinv hst
    exact ⟨ht.trans hsize, lo', L', F', hinv', hc' hc⟩

/-- The lists and the counter agree. -/
structure Books (size : ℕ) (s : GroupRun) (L F : List ℕ) : Prop where
  lists : BlockLists s L F
  nodup : L.Nodup
  coalesced : Coalesced s.heap L
  total : s.heap.totalSize = size
  sum : bytes s.heap L = size
  count : s.heap.currentBlocks = (L.filter fun b => !s.heap.isFree b).length

/-- In every run the books are right, and `groupGetInfo` reports the bytes that
the live blocks leave. -/
theorem group_bookkeeping (h8 : 8 ∣ size) (hsz : headerSize < size) (hw : size < wordSize)
    (h : (groupSystem start size).Reach (fun _ _ => True) s) :
    ∃ L F, Books size s L F ∧
      (start ≠ 0 → ∃ info, groupGetInfo s.heap = some info ∧
        info.freeMemory + bytes s.heap (s.live.map (· - headerSize)) = size ∧
        (s.heap.currentBlocks = 0 →
          info.freeBlockCount = 1 ∧ F.length = 1 ∧ info.freeMemory = size)) := by
  rcases Nat.eq_zero_or_pos start with rfl | h0
  · obtain ⟨g, rfl⟩ := groupRun_null h
    refine ⟨[0], [0], ⟨groupInit_blockLists g 0 size, by simp, ?_, ?_, ?_, ?_⟩, fun h0 => absurd rfl h0⟩
    · simp [Coalesced, groupInit]
    · simp [groupInit]
    · have hsum := (groupInit_tiles g 0 h8 hsz hw).sum_eq
      rwa [Nat.zero_add, Nat.zero_add] at hsum
    · simp [groupInit]
  · obtain ⟨hsize, lo, L, F, hinv, hc⟩ := groupRun_counted h0 h8 hsz hw h
    have hsum : bytes s.heap L = size := by
      have := hinv.shape.tiles.sum_eq
      unfold bytes
      omega
    have hcount : s.heap.currentBlocks = (L.filter fun b => !s.heap.isFree b).length := by
      rw [hc.count, hinv.perm.length_eq, List.length_map]
    refine ⟨L, F, ⟨hinv.blockLists, hinv.shape.tiles.nodup, hc.coalesced, hsize, hsum, hcount⟩, fun _ => ?_⟩
    obtain ⟨info, hrun, hfree, hblocks⟩ := groupGetInfo_spec hinv
    have hbytes := hinv.bytes_eq
    refine ⟨info, hrun, by omega, fun hzero => ?_⟩
    have hlive : s.live = [] := List.length_eq_zero_iff.mp (hc.count.symm.trans hzero)
    have hone : F.length = 1 := by
      have hL := hinv.eq_singleton hc.coalesced hlive
      have hlen := (hinv.free.perm hinv.shape.tiles.nodup).length_eq
      have hnone : (L.filter fun b => !s.heap.isFree b).length = 0 := hcount.symm.trans hzero
      have hall := L.length_eq_length_filter_add fun b => s.heap.isFree b
      rw [hnone, hL] at hall
      rw [hL] at hlen
      simp only [List.length_singleton] at hall
      omega
    rw [hlive, List.map_nil, bytes_nil, Nat.add_zero] at hbytes
    exact ⟨hblocks.trans hone, hone, by omega⟩

theorem group_bookkeeping_twoBlocks : ∃ L F, Books 512 ⟨twoBlocks, [128, 64]⟩ L F := by
  have hreach : (groupSystem 8 512).Reach (fun _ _ => True) ⟨twoBlocks, [128, 64]⟩ :=
    twoBlocks_reach.mono fun _ _ _ => trivial
  obtain ⟨L, F, hbooks, -⟩ := group_bookkeeping (by decide) (by decide) (by decide) hreach
  exact ⟨L, F, hbooks⟩

end BareKernel.Memory

import BareKernel.Links.Runs
import BareKernel.Memory.GroupCalls
import Mathlib.Order.CompletePartialOrder
import Mathlib.Order.Interval.Set.Disjoint

/-! Runs of the group allocator: any sequence of `group_malloc` calls and of
`group_free` calls on pointers handed out and not taken back. In every run the
blocks stay apart and a live block is left alone by the calls on other pointers;
as long as no free merges across the ends of the region, the blocks cover the
region exactly. -/

namespace BareKernel.Memory

open Function (update)
open Links

inductive GroupCall where
  | malloc (size : ℕ)
  | free (ptr : ℕ)

/-- The allocator and the pointers it handed out and has not taken back. -/
structure GroupRun where
  heap : Group
  live : List ℕ

/-- A client of the allocator over `size` bytes from `start` on. A call to
`groupFree` that returns `0` has not taken the block back. -/
def groupSystem (start size : ℕ) : System GroupRun GroupCall where
  init s := ∃ g, s = ⟨groupInit g start size, []⟩
  step s call t :=
    match call with
    | .malloc n => n < wordSize ∧ ∃ ptr g, groupMalloc s.heap n = some (ptr, g) ∧
        t = ⟨g, if ptr = 0 then s.live else ptr :: s.live⟩
    | .free ptr => ptr ∈ s.live ∧ ∃ freed g, groupFree s.heap ptr = (freed, g) ∧
        t = ⟨g, if freed = 0 then s.live else s.live.erase ptr⟩

variable {s t : GroupRun} {call : GroupCall} {ok : GroupRun → GroupCall → Prop} {start size : ℕ}
  {live : List ℕ} {lo : ℕ} {L F : List ℕ}

theorem groupInit_tiles (g : Group) (start : ℕ) (h8 : 8 ∣ size) (hsz : headerSize < size)
    (hw : size < wordSize) : Tiles (groupInit g start size).size start [start] (start + size) := by
  have hpay : alignUp ((size + wordSize - headerSize) % wordSize) = size - headerSize := by
    have hmod : (size + wordSize - headerSize) % wordSize = size - headerSize := by
      simp only [wordSize, headerSize] at *
      omega
    rw [hmod]
    refine alignUp_eq ?_ (by omega)
    simp only [headerSize] at *
    omega
  simp only [Tiles, groupInit, insertIntoFreeList_size, Function.update_self, hpay, true_and]
  omega

theorem groupInit_ring (g : Group) (start size : ℕ) :
    Ring (Both (groupInit g start size).next (groupInit g start size).prev) [start] := by
  rw [ring_singleton]
  simp [groupInit, Both]

theorem groupInit_freeList (g : Group) (start size : ℕ) :
    FreeList (groupInit g start size) [start] [start] := by
  refine ⟨?_, ?_, by simp, fun b => ?_⟩
  · rw [ring_singleton]
    simp [groupInit, insertIntoFreeList, Both]
  · simp [groupInit, insertIntoFreeList]
  · by_cases hb : b = start <;> simp [groupInit, hb]

theorem groupInit_inv (g : Group) (h0 : 0 < start) (h8 : 8 ∣ size) (hsz : headerSize < size)
    (hw : size < wordSize) : GroupInv (groupInit g start size) [] start [start] [start] := by
  have htotal : (groupInit g start size).totalSize = size := by simp [groupInit]
  refine ⟨⟨groupInit_ring g start size, ?_, by simp, ?_, h0, htotal ▸ hw⟩,
    groupInit_freeList g start size, by simp, ?_, ?_⟩
  · rw [htotal]
    exact groupInit_tiles g start h8 hsz hw
  · simp only [List.mem_singleton, forall_eq, groupInit, insertIntoFreeList_size,
      Function.update_self]
    exact alignUp_dvd _
  · intro p
    simp [groupInit]
  · simp [groupInit]

/-- The call does not merge across the ends of the region. -/
def StaysInside (s : GroupRun) : GroupCall → Prop
  | .malloc _ => True
  | .free ptr => ¬MergesAcrossEnds s.heap ptr

/-- Free neighbours are merged, and `currentBlocks` counts the live blocks. -/
structure Counted (s : GroupRun) (L : List ℕ) : Prop where
  coalesced : Coalesced s.heap L
  count : s.heap.currentBlocks = s.live.length
  le : s.live.length ≤ maxBlocks

theorem groupStep_spec (h : GroupInv s.heap s.live lo L F)
    (hst : (groupSystem start size).step s call t) :
    ∃ lo' L' F', GroupInv t.heap t.live lo' L' F' ∧ (StaysInside s call → lo' = lo) ∧
      t.heap.totalSize = s.heap.totalSize ∧ (Counted s L → Counted t L') ∧
      (∀ p ∈ s.live, call ≠ .free p → p ∈ t.live ∧ SameBlock s.heap t.heap p) := by
  rcases call with n | ptr
  · obtain ⟨-, ptr, g, hrun, rfl⟩ := hst
    rcases groupMalloc_spec h n with hfail | ⟨cur, g', L', F', hok, hinv, hsame, -, ht, hco, hlt, hcount⟩
    · obtain ⟨rfl, rfl⟩ : 0 = ptr ∧ s.heap = g := by simpa [hrun] using hfail.symm
      exact ⟨lo, L, F, by simpa using h, fun _ => rfl, rfl, by simp, fun p hp _ => ⟨hp, rfl, rfl, rfl⟩⟩
    · obtain ⟨rfl, rfl⟩ : cur + headerSize = ptr ∧ g' = g := by simpa [hrun] using hok.symm
      have hpos : cur + headerSize ≠ 0 := by simp [headerSize]
      refine ⟨lo, L', F', by rwa [if_neg hpos], fun _ => rfl, ht, fun hc => ?_, fun p hp _ => ?_⟩
      on_goal 1 =>
        have hlen := hc.count
        rw [if_neg hpos]
        refine ⟨hco hc.coalesced, ?_, ?_⟩ <;> simp only [List.length_cons] <;> omega
      have hne : p ≠ cur + headerSize := by
        rintro rfl
        exact (List.nodup_cons.mp hinv.nodup).1 hp
      exact ⟨by rw [if_neg hpos]; exact List.mem_cons_of_mem _ hp, hsame p hp hne⟩
  · obtain ⟨hptr, freed, g, hrun, rfl⟩ := hst
    rcases groupFree_spec h hptr with hfail | ⟨n, g', lo', L', F', hok, hn, hinv, hlo, hsame, -, ht, hco, hcount⟩
    · obtain ⟨rfl, rfl⟩ : 0 = freed ∧ s.heap = g := by simpa [hrun] using hfail.symm
      exact ⟨lo, L, F, by simpa using h, fun _ => rfl, rfl, by simp, fun p hp _ => ⟨hp, rfl, rfl, rfl⟩⟩
    · obtain ⟨rfl, rfl⟩ : n = freed ∧ g' = g := by simpa [hrun] using hok.symm
      refine ⟨lo', L', F', by simpa [hn] using hinv, hlo.mpr, ht, fun hc => ?_, fun p hp hne => ?_⟩
      on_goal 1 =>
        have hlen := hc.count
        have hle := hc.le
        have hone := List.length_erase_of_mem hptr
        have hpos := List.length_pos_of_mem hptr
        rw [if_neg hn]
        refine ⟨hco hc.coalesced, ?_, hone.trans_le (by omega)⟩
        simp only [maxBlocks, wordSize] at *
        omega
      have hpp : p ≠ ptr := by
        rintro rfl
        exact hne rfl
      exact ⟨by simpa [hn] using (List.mem_erase_of_ne hpp).mpr hp, hsame p hp hpp⟩

/-- Over a region that starts at `NULL` every malloc fails. -/
theorem groupRun_null (h : (groupSystem 0 size).Reach ok s) :
    ∃ g, s = ⟨groupInit g 0 size, []⟩ := by
  refine h.invariant (fun s hs => hs) ?_
  rintro s (n | ptr) t ⟨g, rfl⟩ - hst
  · obtain ⟨-, ptr, g', hrun, rfl⟩ := hst
    have hnull : (groupInit g 0 size).freeList = 0 := by simp [groupInit, insertIntoFreeList]
    obtain ⟨rfl, rfl⟩ : 0 = ptr ∧ groupInit g 0 size = g' := by
      simpa [groupMalloc, hnull] using hrun
    exact ⟨g, by simp⟩
  · simp [groupSystem] at hst

/-- What the block list is like in every run: it may have moved up. -/
theorem groupRun_inv (h0 : 0 < start) (h8 : 8 ∣ size) (hsz : headerSize < size)
    (hw : size < wordSize) (h : (groupSystem start size).Reach ok s) :
    ∃ lo L F, GroupInv s.heap s.live lo L F := by
  refine h.invariant (I := fun s => ∃ lo L F, GroupInv s.heap s.live lo L F) ?_ ?_
  · rintro _ ⟨g, rfl⟩
    exact ⟨start, [start], [start], groupInit_inv g h0 h8 hsz hw⟩
  · rintro s call t ⟨lo, L, F, hinv⟩ - hst
    obtain ⟨lo', L', F', hinv', -⟩ := groupStep_spec hinv hst
    exact ⟨lo', L', F', hinv'⟩

/-- A live block stays as it is until it is freed. -/
theorem groupLeads_same {p : ℕ} (hinv : GroupInv s.heap s.live lo L F) (hp : p ∈ s.live)
    (h : (groupSystem start size).Leads (fun _ call => call ≠ .free p) s t) :
    (∃ lo L F, GroupInv t.heap t.live lo L F) ∧ p ∈ t.live ∧ SameBlock s.heap t.heap p := by
  induction h with
  | refl => exact ⟨⟨lo, L, F, hinv⟩, hp, rfl, rfl, rfl⟩
  | step _ hne hst ih =>
    obtain ⟨⟨lo₁, L₁, F₁, hinv₁⟩, hp₁, hsame₁⟩ := ih
    obtain ⟨lo₂, L₂, F₂, hinv₂, -, -, -, hkeep⟩ := groupStep_spec hinv₁ hst
    obtain ⟨hp₂, hsame₂⟩ := hkeep p hp₁ hne
    exact ⟨⟨lo₂, L₂, F₂, hinv₂⟩, hp₂, hsame₁.trans hsame₂⟩

/-- A memory of zeros. -/
def zeroGroup : Group := ⟨⟨fun _ => 0, fun _ => 0, fun _ => false, fun _ => 0, fun _ => 0, fun _ => 0,
  fun _ => 0⟩, 0, 0, 0, 0, 0, 0⟩

/-- Two blocks of eight bytes at the bottom of a region of 512 bytes. -/
def twoBlocks : Group := groupTake (groupTake (groupInit zeroGroup 8 512) 8 8 8) 72 8 8

theorem twoBlocks_reach :
    (groupSystem 8 512).Reach StaysInside ⟨twoBlocks, [128, 64]⟩ := by
  have hinit : (groupSystem 8 512).Reach StaysInside ⟨groupInit zeroGroup 8 512, []⟩ :=
    .init ⟨zeroGroup, rfl⟩
  have hone : (groupSystem 8 512).Reach StaysInside
      ⟨groupTake (groupInit zeroGroup 8 512) 8 8 8, [64]⟩ :=
    hinit.step (a := .malloc 8) trivial ⟨by decide, 64, _, rfl, rfl⟩
  exact hone.step (a := .malloc 8) trivial ⟨by decide, 128, _, rfl, rfl⟩

/-! ### Blocks stay apart -/

/-- The addresses of a block, header and payload. -/
def extent (g : Group) (b : ℕ) : Set ℕ := Set.Ico b (b + headerSize + g.size b)

def header (b : ℕ) : Set ℕ := Set.Ico b (b + headerSize)

/-- The addresses handed out with `ptr`. -/
def payload (g : Group) (ptr : ℕ) : Set ℕ := Set.Ico ptr (ptr + g.size (ptr - headerSize))

/-- `L` is the ring of all blocks, `F` the ring of the free ones. -/
structure BlockLists (s : GroupRun) (L F : List ℕ) : Prop where
  ring : Ring (Both s.heap.next s.heap.prev) L
  free : FreeList s.heap L F
  live : ∀ p, p ∈ s.live ↔ ∃ b ∈ L, s.heap.isFree b = false ∧ p = b + headerSize

theorem GroupInv.blockLists (h : GroupInv s.heap s.live lo L F) : BlockLists s L F :=
  ⟨h.shape.ring, h.free, h.live⟩

theorem groupInit_blockLists (g : Group) (start size : ℕ) :
    BlockLists ⟨groupInit g start size, []⟩ [start] [start] :=
  ⟨groupInit_ring g start size, groupInit_freeList g start size, fun p => by simp [groupInit]⟩

theorem Tiles.disjoint_extent {g : Group} {hi a b : ℕ} (h : Tiles g.size lo L hi) (ha : a ∈ L)
    (hb : b ∈ L) (hab : a ≠ b) : Disjoint (extent g a) (extent g b) := by
  rw [extent, extent, Set.Ico_disjoint_Ico]
  rcases h.disjoint ha hb hab with hd | hd <;> omega

theorem header_subset (g : Group) (b : ℕ) : header b ⊆ extent g b :=
  Set.Ico_subset_Ico_right (Nat.le_add_right ..)

theorem payload_subset (g : Group) (b : ℕ) : payload g (b + headerSize) ⊆ extent g b := by
  rw [payload, Nat.add_sub_cancel]
  exact Set.Ico_subset_Ico_left (Nat.le_add_right ..)

/-- In every run the blocks are disjoint, and a block handed out is not changed
by calls on other pointers until it is taken back. -/
theorem group_blocks_disjoint (h8 : 8 ∣ size) (hsz : headerSize < size) (hw : size < wordSize)
    (h : (groupSystem start size).Reach (fun _ _ => True) s) :
    (∃ L F, BlockLists s L F ∧ L.Nodup ∧
      (∀ a ∈ L, ∀ b ∈ L, a ≠ b → Disjoint (extent s.heap a) (extent s.heap b)) ∧
      ∀ p ∈ s.live, (∀ q ∈ s.live, p ≠ q → Disjoint (payload s.heap p) (payload s.heap q)) ∧
        ∀ b ∈ L, Disjoint (payload s.heap p) (header b)) ∧
    (∀ n, (groupMalloc s.heap n).isSome) ∧
    ∀ p ∈ s.live, ∀ t, (groupSystem start size).Leads (fun _ call => call ≠ .free p) s t →
      p ∈ t.live ∧ SameBlock s.heap t.heap p := by
  rcases Nat.eq_zero_or_pos start with rfl | h0
  · obtain ⟨g, rfl⟩ := groupRun_null h
    refine ⟨⟨[0], [0], groupInit_blockLists g 0 size, by simp, by simp, by simp⟩, fun n => ?_, by simp⟩
    simp [groupMalloc, groupInit, insertIntoFreeList]
  · obtain ⟨lo, L, F, hinv⟩ := groupRun_inv h0 h8 hsz hw h
    have hext := fun a ha b hb => hinv.shape.tiles.disjoint_extent (a := a) (b := b) ha hb
    refine ⟨⟨L, F, hinv.blockLists, hinv.shape.tiles.nodup, hext, fun p hp => ?_⟩, fun n => ?_,
      fun p hp t hl => (groupLeads_same hinv hp hl).2⟩
    · obtain ⟨a, ha, -, rfl⟩ := (hinv.live p).mp hp
      refine ⟨fun q hq hne => ?_, fun b hb => ?_⟩
      · obtain ⟨b, hb, -, rfl⟩ := (hinv.live q).mp hq
        have hab : a ≠ b := by
          rintro rfl
          exact hne rfl
        exact (hext a ha b hb hab).mono (payload_subset ..) (payload_subset ..)
      · by_cases hab : a = b
        · rw [← hab, payload, header, Set.Ico_disjoint_Ico]
          omega
        · exact (hext a ha b hb hab).mono (payload_subset ..) (header_subset ..)
    · rcases groupMalloc_spec hinv n with hrun | ⟨cur, g', L', F', hrun, -⟩ <;> simp [hrun]

theorem group_blocks_disjoint_twoBlocks :
    Disjoint (payload twoBlocks 128) (payload twoBlocks 64) := by
  have hreach : (groupSystem 8 512).Reach (fun _ _ => True) ⟨twoBlocks, [128, 64]⟩ :=
    twoBlocks_reach.mono fun _ _ _ => trivial
  obtain ⟨⟨L, F, -, -, -, hlive⟩, -, -⟩ :=
    group_blocks_disjoint (by decide) (by decide) (by decide) hreach
  exact (hlive 128 (by decide)).1 64 (by decide) (by decide)

/-! ### Blocks cover the region -/

/-- The blocks, from `start` on, lie side by side and end where the region ends. -/
def Covers (start size : ℕ) (s : GroupRun) : Prop :=
  ∃ L F, BlockLists s L F ∧ Tiles s.heap.size start L (start + size)

/-- As long as no free merges across the ends, the blocks cover the region. -/
theorem group_blocks_cover (h8 : 8 ∣ size) (hsz : headerSize < size) (hw : size < wordSize)
    (h : (groupSystem start size).Reach StaysInside s) : Covers start size s := by
  rcases Nat.eq_zero_or_pos start with rfl | h0
  · obtain ⟨g, rfl⟩ := groupRun_null h
    exact ⟨[0], [0], groupInit_blockLists g 0 size, groupInit_tiles g 0 h8 hsz hw⟩
  · have hinv : s.heap.totalSize = size ∧ ∃ L F, GroupInv s.heap s.live start L F := by
      refine h.invariant (I := fun s => s.heap.totalSize = size ∧
        ∃ L F, GroupInv s.heap s.live start L F) ?_ ?_
      · rintro _ ⟨g, rfl⟩
        exact ⟨by simp [groupInit], [start], [start], groupInit_inv g h0 h8 hsz hw⟩
      · rintro s call t ⟨htotal, L, F, hinv⟩ hin hst
        obtain ⟨lo', L', F', hinv', hlo, ht, -⟩ := groupStep_spec hinv hst
        obtain rfl := hlo hin
        exact ⟨ht.trans htotal, L', F', hinv'⟩
    obtain ⟨htotal, L, F, hinv⟩ := hinv
    exact ⟨L, F, hinv.blockLists, htotal ▸ hinv.shape.tiles⟩

theorem group_blocks_cover_twoBlocks : Covers 8 512 ⟨twoBlocks, [128, 64]⟩ :=
  group_blocks_cover (by decide) (by decide) (by decide) twoBlocks_reach

/-- Freeing the lowest block while the last one is free merges the two, and the
merged block ends beyond the region. -/
theorem group_blocks_leave_region :
    ∃ s, (groupSystem 8 512).Reach (fun _ _ => True) s ∧ ¬Covers 8 512 s := by
  refine ⟨⟨(groupFree twoBlocks 64).2, [128]⟩, ?_, ?_⟩
  · have htwo : (groupSystem 8 512).Reach (fun _ _ => True) ⟨twoBlocks, [128, 64]⟩ :=
      twoBlocks_reach.mono fun _ _ _ => trivial
    exact htwo.step (a := .free 64) trivial ⟨by decide, 8, _, rfl, rfl⟩
  · rintro ⟨L, F, hlists, htiles⟩
    have hhead : (136 : ℕ) ∈ F := by
      have hh : F.head?.getD 0 = 136 := hlists.free.head
      rcases F with _ | ⟨f, F⟩
      · simp at hh
      · simp only [List.head?_cons, Option.getD_some] at hh
        simp [hh]
    have hend := (htiles.bounds ((hlists.free.mem 136).mp hhead).1).2
    have hsize : (groupFree twoBlocks 64).2.size 136 = 392 := by decide
    simp only [headerSize, hsize] at hend
    omega

end BareKernel.Memory

import BareKernel.Buddy.Coalesce
import BareKernel.Memory.Manager

/-! The buddy allocator under the interface of `memory/memory_manager.h`. Its free takes the
size out of the bytes allocated and adds it to the bytes freed, so the two do not balance any
more after the first one; the group manager's do. -/

namespace BareKernel.Buddy

open Function (update)
open Links Memory MemoryManager

variable {g g' : Heap} {place : ℕ → Place} {F : ℕ → List ℕ} {s t : ManagerRun Heap} {call : MemoryCall}
  {start size b n ptr order cur x : ℕ} {L : List ℕ}

/-- The walk over one free list from `cur` on, with the bytes and the blocks so far. -/
def buddyInfoList (g : Heap) : ℕ → ℕ → ℕ × ℕ → Option (ℕ × ℕ)
  | 0, _, _ => none
  | fuel + 1, cur, (freeMem, freeBlocks) =>
    if cur ≠ 0 then
      buddyInfoList g fuel (g.next cur) ((freeMem + g.size cur) % wordSize, (freeBlocks + 1) % wordSize)
    else some (freeMem, freeBlocks)

/-- `none` if the walk over a free list never ends. -/
def buddyGetInfo (g : Heap) : Option MemoryInfo := do
  let walk (acc : ℕ × ℕ) (i : ℕ) := buddyInfoList g (g.totalSize + 1) (g.freeBlocks i) acc
  let (freeMem, freeBlocks) ← (List.range (maxOrder + 1)).foldlM walk (0, 0)
  some
    { totalMemory := g.totalSize
      usedMemory := (g.totalSize + wordSize - freeMem) % wordSize
      freeMemory := freeMem
      blockCount := (freeBlocks + g.currentBlocks) % wordSize
      freeBlockCount := freeBlocks
      totalAllocated := g.totalAllocated
      totalFreed := g.totalFreed
      currentBlocks := g.currentBlocks
      memoryLeak := g.totalAllocated != g.totalFreed }

def buddyManager : MemoryManager Heap where
  init := buddyInit
  malloc g size := some (buddyMalloc g size)
  free := buddyFree
  getInfo := buddyGetInfo

/-! ### The report -/

theorem buddyInfoList_ends (h : Chain g.next 0 cur L) {fuel : ℕ} (hfuel : L.length < fuel) (acc : ℕ × ℕ) :
    ∃ r, buddyInfoList g fuel cur acc = some r := by
  induction L generalizing cur fuel acc with
  | nil =>
    obtain ⟨fuel, rfl⟩ := Nat.exists_eq_succ_of_ne_zero (Nat.ne_of_gt hfuel)
    obtain rfl : cur = 0 := h
    exact ⟨acc, rfl⟩
  | cons c L ih =>
    obtain ⟨fuel, rfl⟩ := Nat.exists_eq_succ_of_ne_zero (Nat.ne_of_gt (Nat.zero_lt_of_lt hfuel))
    obtain ⟨rfl, h0, hL⟩ := h
    rw [List.length_cons] at hfuel
    obtain ⟨r, hr⟩ := ih hL (Nat.lt_of_succ_lt_succ hfuel)
      ((acc.1 + g.size cur) % wordSize, (acc.2 + 1) % wordSize)
    exact ⟨r, by rw [buddyInfoList, if_pos h0, hr]⟩

theorem Blocks.walk_ends (h : Blocks g place F) {orders : List ℕ} (hle : ∀ k ∈ orders, k ≤ maxOrder) (acc : ℕ × ℕ) :
    ∃ r, orders.foldlM (fun acc i => buddyInfoList g (g.totalSize + 1) (g.freeBlocks i) acc) acc = some r := by
  induction orders generalizing acc with
  | nil => exact ⟨acc, rfl⟩
  | cons k orders ih =>
    have hk := hle k (List.mem_cons_self ..)
    have hfuel : (F k).length < g.totalSize + 1 := by
      cases hF : F k with
      | nil => exact Nat.succ_pos _
      | cons b B =>
        have hfree := (h.mem k hk b).mp (by simp [hF])
        have hlt := h.length_lt (b := b) hk (by simp [hfree])
        rw [hF] at hlt
        omega
    obtain ⟨r, hr⟩ := buddyInfoList_ends (h.list k hk) hfuel acc
    obtain ⟨r', hr'⟩ := ih (fun j hj => hle j (List.mem_cons_of_mem _ hj)) r
    refine ⟨r', ?_⟩
    rw [List.foldlM_cons, hr]
    exact hr'

/-- The report ends, with the counters as they are. -/
theorem Blocks.getInfo (h : Blocks g place F) : ∃ info, buddyGetInfo g = some info ∧
    info.totalAllocated = g.totalAllocated ∧ info.totalFreed = g.totalFreed ∧
      info.currentBlocks = g.currentBlocks ∧ info.memoryLeak = (g.totalAllocated != g.totalFreed) := by
  have horders : ∀ k ∈ List.range (maxOrder + 1), k ≤ maxOrder := fun k hk => Nat.le_of_lt_succ (List.mem_range.mp hk)
  obtain ⟨r, hr⟩ := h.walk_ends horders (0, 0)
  rw [buddyGetInfo]
  simp only [hr]
  exact ⟨_, rfl, rfl, rfl, rfl, rfl⟩

/-! ### What a malloc does to the headers of other blocks -/

/-- Cutting a block writes headers inside it only. -/
theorem splitLoop_userSize (g : Heap) (hx : x ≤ b ∨ b + blockBytes cur ≤ x) :
    (splitLoop g b order cur).userSize x = g.userSize x := by
  induction cur generalizing g with
  | zero => rfl
  | succ cur ih =>
    have hpos := minBlockSize_le cur
    rw [blockBytes_succ] at hx
    simp only [minBlockSize] at hpos
    unfold splitLoop
    split
    · rw [ih (splitBlock g b cur) (by omega)]
      apply Function.update_of_ne
      show x ≠ b + blockBytes cur
      omega
    · rfl

/-- What a malloc does to the counters and to the sizes that were asked for. -/
theorem buddyMalloc_books (h : Blocks g place F) (hrun : buddyMalloc g n = (ptr, g')) :
    (ptr = 0 ∧ g' = g) ∨ n ≠ 0 ∧ ptr ≠ 0 ∧ g'.currentBlocks = (g.currentBlocks + 1) % wordSize ∧
      g'.totalAllocated = (g.totalAllocated + n) % wordSize ∧ g'.totalFreed = g.totalFreed ∧
      g'.userSize (ptr - headerSize) = n ∧ ∀ x, place x = .live → g'.userSize x = g.userSize x := by
  unfold buddyMalloc at hrun
  dsimp only at hrun
  split at hrun
  · obtain ⟨rfl, rfl⟩ := Prod.mk.inj hrun
    exact Or.inl ⟨rfl, rfl⟩
  · rename_i h0
    split at hrun
    · obtain ⟨rfl, rfl⟩ := Prod.mk.inj hrun
      exact Or.inl ⟨rfl, rfl⟩
    · rename_i hcur
      set cur := searchLoop g (maxOrder + 1) (getOrder ((n + headerSize) % wordSize)) with hc
      obtain ⟨rfl, rfl⟩ := Prod.mk.inj hrun
      rw [not_lt] at hcur
      have hne : g.freeBlocks cur ≠ 0 := (searchLoop_spec g (n := maxOrder + 1) (requestOrder n) (by omega)).2.2 hcur
      obtain ⟨T, hF, -⟩ := (h.list cur hcur).of_ne hne
      have hfree : place (g.freeBlocks cur) = .free cur := (h.mem cur hcur _).mp (by simp [hF])
      have hsame := splitLoop_statics { g with freeBlocks := update g.freeBlocks cur (g.next (g.freeBlocks cur)) }
        (g.freeBlocks cur) (getOrder ((n + headerSize) % wordSize)) cur
      refine Or.inr ⟨h0, by simp [headerSize], ?_, ?_, hsame.totalFreed, by simp, fun x hx => ?_⟩
      · exact congrArg (fun m => (m + 1) % wordSize) hsame.currentBlocks
      · exact congrArg (fun m => (m + n) % wordSize) hsame.totalAllocated
      · -- a live block lies outside the block that is cut
        have hxb : x ≠ g.freeBlocks cur := by
          rintro rfl
          rw [hfree] at hx
          cases hx
        have hapart := h.disjoint x (g.freeBlocks cur) (by simp [hx]) (by simp [hfree]) hxb
        have hleast := (h.free_sized _ _ hfree).least
        show update _ _ _ x = _
        rw [Function.update_of_ne hxb, splitLoop_userSize _ (by omega)]

/-! ### The client -/

/-- The static counters before the first `buddy_init`, which does not set them. -/
def Fresh (g : Heap) : Prop := g.currentBlocks = 0 ∧ g.totalAllocated = 0 ∧ g.totalFreed = 0

/-- The client never frees. -/
def KeepsAll (_ : ManagerRun Heap) : MemoryCall → Prop
  | .malloc _ => True
  | .free _ => False

/-- What holds of a client of the buddy manager that has freed nothing. -/
structure BuddyClient (s : ManagerRun Heap) (place : ℕ → Place) (F : ℕ → List ℕ) : Prop where
  inv : BuddyInv ⟨s.heap, s.live.map Prod.fst⟩ place F
  count : s.heap.currentBlocks = s.live.length
  user : ∀ ptr n, (ptr, n) ∈ s.live → n ≠ 0 ∧ s.heap.userSize (ptr - headerSize) = n
  asked : s.heap.totalAllocated = s.asked
  balance : s.asked = owed s
  freed : s.heap.totalFreed = 0
  small : s.asked < wordSize

theorem BuddyClient.length_le (h : BuddyClient s place F) : s.live.length ≤ owed s := by
  have hone : ∀ i ∈ s.live.map Prod.snd, 1 ≤ i := by
    intro i hi
    obtain ⟨⟨ptr, n⟩, hlive, rfl⟩ := List.mem_map.mp hi
    exact Nat.one_le_iff_ne_zero.mpr (h.user ptr n hlive).1
  have hle := List.length_le_sum_of_one_le _ hone
  rwa [List.length_map] at hle

theorem BuddyClient.free (h : BuddyClient s place F) (hlive : (ptr, n) ∈ s.live) :
    ptr ≠ 0 ∧ ∃ g, buddyFree s.heap ptr = some (n, g) := by
  obtain ⟨b, hb, rfl⟩ := (h.inv.live ptr).mp (List.mem_map_of_mem hlive)
  obtain ⟨freed, g, place', F', hrun, -⟩ := buddyFree_spec h.inv.blocks hb
  have hptr : b + headerSize ≠ 0 := by simp [headerSize]
  obtain ⟨rfl, -⟩ := buddyFree_counters hptr hrun
  refine ⟨hptr, g, ?_⟩
  rw [hrun, (h.user _ n hlive).2]

theorem BuddyClient.means (h : BuddyClient s place F) : InfoMeans buddyManager s := by
  refine ⟨?_, fun ptr n hlive => (h.free hlive).2⟩
  obtain ⟨info, hrun, halloc, hfreed, hcur, hleak⟩ := h.inv.blocks.getInfo
  have hbalance : info.totalAllocated = owed s + info.totalFreed := by
    rw [halloc, hfreed, h.freed, h.asked, h.balance, Nat.add_zero]
  refine ⟨info, hrun, ?_, hbalance, ?_⟩
  · rw [hcur, h.count]
  · rw [hleak, bne_eq_false_iff_eq, ← halloc, ← hfreed, hbalance]
    have hlen := h.length_le
    constructor
    · intro hsame
      exact List.length_eq_zero_iff.mp (by omega)
    · intro hnil
      simp [owed, hnil]

theorem BuddyClient.malloc (h : BuddyClient s place F) (hw : size < wordSize)
    (hst : (buddyManager.client start size).step s (.malloc n) t) : ∃ place' F', BuddyClient t place' F' := by
  obtain ⟨hn, hsmall, ptr, g, hrun, rfl⟩ := hst
  have hrun := Option.some.inj hrun
  have hstep : (buddySystem start size).step ⟨s.heap, s.live.map Prod.fst⟩ (.malloc n)
      ⟨g, if ptr = 0 then s.live.map Prod.fst else ptr :: s.live.map Prod.fst⟩ :=
    ⟨hn.trans_lt hw, ptr, g, hrun, rfl⟩
  obtain ⟨place', F', hinv, -⟩ := buddyStep_inv h.inv hstep
  rcases buddyMalloc_books h.inv.blocks hrun with ⟨rfl, rfl⟩ | ⟨h0, hptr, hcur, halloc, hfreed, huse, hsame⟩
  · rw [if_pos rfl] at hinv ⊢
    exact ⟨place', F', hinv, h.count, h.user, h.asked, h.balance, h.freed, h.small⟩
  · rw [if_neg hptr] at hinv hsmall ⊢
    have hlen := h.length_le
    have hbalance := h.balance
    have hsmall : s.asked + n < wordSize := hsmall
    refine ⟨place', F', hinv, ?_, fun p m hp => ?_, ?_, ?_, hfreed.trans h.freed, hsmall⟩
    · rw [hcur, h.count, Nat.mod_eq_of_lt (by omega)]
      rfl
    · rcases List.mem_cons.mp hp with hnew | hp
      · obtain ⟨rfl, rfl⟩ := Prod.mk.inj hnew
        exact ⟨h0, huse⟩
      · obtain ⟨hm, hold⟩ := h.user p m hp
        obtain ⟨b, hb, rfl⟩ := (h.inv.live p).mp (List.mem_map_of_mem hp)
        rw [Nat.add_sub_cancel] at hold ⊢
        exact ⟨hm, (hsame b hb).trans hold⟩
    · rw [halloc, h.asked, Nat.mod_eq_of_lt hsmall]
    · show s.asked + n = (((ptr, n) :: s.live).map Prod.snd).sum
      rw [List.map_cons, List.sum_cons]
      unfold owed at hbalance
      omega

/-- The first free takes the balance away. -/
theorem BuddyClient.unbalanced (h : BuddyClient s place F)
    (hst : (buddyManager.client start size).step s (.free ptr) t) : ¬InfoMeans buddyManager t := by
  obtain ⟨n, freed, g, hlive, hrun, rfl⟩ := hst
  obtain ⟨hptr, g', hfree⟩ := h.free hlive
  obtain ⟨rfl, rfl⟩ : n = freed ∧ g' = g := by simpa using hfree.symm.trans hrun
  obtain ⟨-, -, -, -, halloc, hfreed⟩ := buddyFree_counters hptr hfree
  have howed := owed_erase hlive
  have hn := (h.user ptr n hlive).1
  have hsmall := h.small
  have hbalance := h.balance
  have hasked := h.asked
  rintro ⟨⟨info, hinfo, hacc⟩, -⟩
  have htotal := hacc.balance
  obtain ⟨walk, -, hret⟩ := Option.bind_eq_some_iff.mp hinfo
  obtain rfl := Option.some.inj hret
  change g'.totalAllocated = ((s.live.erase (ptr, n)).map Prod.snd).sum + g'.totalFreed at htotal
  rw [halloc, hfreed, h.freed, if_pos (by omega), Nat.zero_add, Nat.mod_eq_of_lt (by omega)] at htotal
  omega

theorem buddyManager_client (h0 : 0 < start) (hal : blockBytes maxOrder ∣ start) (hsz : blockBytes maxOrder ≤ size)
    (hw : size < wordSize) (hg : Fresh g)
    (h : (buddyManager.client start size).Leads KeepsAll (buddyManager.opened g start size) s) :
    ∃ place F, BuddyClient s place F := by
  induction h with
  | refl =>
    exact ⟨_, _, buddyInit_inv g h0 hal hsz hw, hg.1, by simp [opened], hg.2.1, rfl, hg.2.2, by simp [opened, wordSize]⟩
  | @step s t call _ hok hst ih =>
    obtain ⟨place, F, hc⟩ := ih
    cases call with
    | malloc n => exact hc.malloc hw hst
    | free ptr => exact hok.elim

/-- The reports of the group manager mean what they should in every run whose frees do not
merge across the ends of the region; those of the buddy manager as long as nothing is freed,
and not any more after the first free. -/
theorem memory_info_means (start size : ℕ) :
    (∀ s, 0 < start → 8 ∣ size → Memory.headerSize < size → size < wordSize →
      (groupManager.client start size).Reach GroupStays s → InfoMeans groupManager s) ∧
    ∀ g s, 0 < start → blockBytes maxOrder ∣ start → blockBytes maxOrder ≤ size → size < wordSize →
      Fresh g → (buddyManager.client start size).Leads KeepsAll (buddyManager.opened g start size) s →
      InfoMeans buddyManager s ∧
        ∀ ptr t, (buddyManager.client start size).step s (.free ptr) t → ¬InfoMeans buddyManager t := by
  constructor
  · intro s h0 h8 hsz hw h
    obtain ⟨L, F, hc⟩ := groupManager_client h0 h8 hsz hw h
    exact hc.means
  · intro g s h0 hal hsz hw hg h
    obtain ⟨place, F, hc⟩ := buddyManager_client h0 hal hsz hw hg h
    exact ⟨hc.means, fun ptr t => hc.unbalanced⟩

/-- A client of the buddy manager over the kernel's region that has asked for 100 bytes. -/
def oneHeld : ManagerRun Heap := ⟨oneMalloc.heap, [(kernelStart + headerSize, 100)], 100⟩

theorem oneHeld_leads :
    (buddyManager.client kernelStart kernelSize).Leads KeepsAll (buddyManager.opened zeroHeap kernelStart kernelSize)
      oneHeld :=
  .step (a := .malloc 100) .refl trivial ⟨by decide, by decide, _, _, rfl, rfl⟩

/-- A client of the group manager over 512 bytes that has asked for 8 bytes. -/
def eightHeld : ManagerRun Group := ⟨groupTake (groupInit zeroGroup 8 512) 8 8 8, [(64, 8)], 8⟩

theorem eightHeld_reach : (groupManager.client 8 512).Reach GroupStays eightHeld :=
  .step (a := .malloc 8) (.init ⟨zeroGroup, rfl⟩) trivial ⟨by decide, by decide, 64, _, rfl, rfl⟩

theorem memory_info_means_held : InfoMeans groupManager eightHeld ∧ InfoMeans buddyManager oneHeld :=
  ⟨(memory_info_means 8 512).1 eightHeld (by decide) (by decide) (by decide) (by decide) eightHeld_reach,
    ((memory_info_means kernelStart kernelSize).2 zeroHeap oneHeld (by decide) (by decide) (by decide) (by decide)
      ⟨rfl, rfl, rfl⟩ oneHeld_leads).1⟩

/-- After it has given them back the report says that 100 bytes have been freed and none
allocated. -/
theorem memory_info_oneFree :
    (buddyManager.client kernelStart kernelSize).Reach (fun _ _ => True) ⟨oneFree.heap, [], 100⟩ ∧
      ¬InfoMeans buddyManager ⟨oneFree.heap, [], 100⟩ := by
  have hrun : buddyManager.free oneHeld.heap (kernelStart + headerSize) = some (100, oneFree.heap) := by
    simp only [buddyManager, oneHeld]
    rfl
  have hnone : oneHeld.live.erase (kernelStart + headerSize, 100) = [] := by simp [oneHeld]
  have hst : (buddyManager.client kernelStart kernelSize).step oneHeld (.free (kernelStart + headerSize))
      { oneHeld with heap := oneFree.heap, live := oneHeld.live.erase (kernelStart + headerSize, 100) } :=
    ⟨100, 100, oneFree.heap, List.mem_cons_self .., hrun, rfl⟩
  rw [hnone] at hst
  have hreach : (buddyManager.client kernelStart kernelSize).Reach (fun _ _ => True) oneHeld :=
    (oneHeld_leads.mono fun _ _ _ => trivial).reach (.init ⟨zeroHeap, rfl⟩)
  obtain ⟨place, F, hc⟩ := buddyManager_client (by decide) (by decide) (by decide) (by decide) ⟨rfl, rfl, rfl⟩
    oneHeld_leads
  exact ⟨hreach.step (a := .free (kernelStart + headerSize)) trivial hst, hc.unbalanced hst⟩

end BareKernel.Buddy

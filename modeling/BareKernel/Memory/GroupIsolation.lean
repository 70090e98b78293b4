import BareKernel.Memory.GroupBytes

/-! Clients of the group allocator that store into the blocks they were given. In every run
the bytes of a block are those that its owner has stored, whatever the allocator and the
owners of other blocks do, and the allocator on the bytes takes the steps of the
allocator on arrays. -/

namespace BareKernel.Memory

open Function (update)
open Links

variable {S T : Set ℕ} {m₀ : Bytes} {c c' : ByteGroup} {g g' : Group} {a b n lo cur req ptr size : ℕ}
  {L F live : List ℕ}

/-! ### The headers of the blocks -/

theorem Shape.apart (h : Shape g lo L) (hhi : lo + g.totalSize ≤ wordSize) : Apart {b | b ∈ L} where
  apart a ha b hb hab := by
    rcases h.tiles.disjoint ha hb hab with hd | hd <;> omega
  small a ha := by
    have hend := (h.tiles.bounds ha).2
    simp only [headerSize] at hend
    omega

theorem FreeList.links (h : FreeList g L F) (hb : b ∈ F) : g.freeNext b ∈ L ∧ g.freePrev b ∈ L :=
  ⟨((h.mem _).mp (h.ring.fwd_mem hb).1).1, ((h.mem _).mp (h.ring.bwd_mem hb).1).1⟩

theorem FreeList.head_mem (h : FreeList g L F) (h0 : g.freeList ≠ 0) : g.freeList ∈ F := by
  have hhead := h.head
  cases F with
  | nil => exact absurd hhead.symm h0
  | cons b F =>
    rw [← hhead]
    exact List.mem_cons_self

theorem FreeList.head_links (h : FreeList g L F) (h0 : g.freeList ≠ 0) :
    g.freeList ∈ L ∧ g.freePrev g.freeList ∈ L :=
  ⟨((h.mem _).mp (h.head_mem h0)).1, (h.links (h.head_mem h0)).2⟩

theorem Sim.restrict (h : Sim S m₀ c g) (hT : ∀ b ∈ T, b ∈ S) : Sim T c.mem c g :=
  ⟨fun b hb => h.field b (hT b hb), fun b hb => h.isFree b (hT b hb), h.freeList, h.memoryStart, h.totalSize,
    h.currentBlocks, h.totalAllocated, h.totalFreed, fun _ _ => rfl⟩

theorem Sim.setCounts (h : Sim S m₀ c g) {k k' t t' r r' : ℕ} (hk : k' = k) (ht : t' = t) (hr : r' = r) :
    Sim S m₀ { c with currentBlocks := k', totalAllocated := t', totalFreed := r' }
      { g with currentBlocks := k, totalAllocated := t, totalFreed := r } :=
  ⟨h.field, h.isFree, h.freeList, h.memoryStart, h.totalSize, hk, ht, hr, h.frame⟩

/-- What `group_malloc` does to the block that it takes: the headers are those of the blocks,
and the new one if it splits, which lies in the block. -/
theorem Sim.take (h : Sim {b | b ∈ L} m₀ c g) (hs : Shape g lo L) (hF : FreeList g L F)
    (hhi : lo + g.totalSize ≤ wordSize) (hcur : cur ∈ F) (hfit : req ≤ g.size cur) (h8 : 8 ∣ req)
    (hreq : req < wordSize) (hsize : size < wordSize) :
    ∃ T : Set ℕ, Sim T m₀ (c.take cur req size) (groupTake g cur req size) ∧ cur ∈ T ∧
      (∀ b ∈ T, b ∈ L ∨ header b ⊆ extent g cur) ∧ ∀ b ∈ T, (groupTake g cur req size).next b ∈ T := by
  have hcL := ((hF.mem cur).mp hcur).1
  have hS := hs.apart hhi
  have hnext := (hs.ring.fwd_mem hcL).1
  obtain ⟨L', F', hs', hF', hcur', -, -, -⟩ := groupSplit_spec hs hF hcur hfit h8
  -- the headers behind the split
  obtain ⟨T, hT, hsim, hcT, hsub, hclosed⟩ : ∃ T : Set ℕ, Apart T ∧ Sim T m₀ (c.split cur req) (groupSplit g cur req) ∧
      cur ∈ T ∧ (∀ b ∈ T, b ∈ L ∨ header b ⊆ extent g cur) ∧ ∀ b ∈ T, (groupSplit g cur req).next b ∈ T := by
    by_cases hrem : headerSize + minBlockSize < g.size cur - req
    · set nb := cur + headerSize + req with hnb
      have hend := (hs.tiles.bounds hcL).2
      have hhdr : headerSize = 56 := rfl
      have hmin : minBlockSize = 16 := rfl
      have hout (a : ℕ) (ha : a ∈ L) : a + headerSize ≤ nb ∨ nb + headerSize ≤ a := by
        by_cases hac : a = cur
        · omega
        · rcases hs.tiles.disjoint ha hcL hac with hd | hd <;> omega
      have hnot : nb ∉ L := fun hm => by
        have := hout nb hm
        omega
      have hapart : Apart (insert nb {b | b ∈ L}) := by
        refine ⟨fun a ha b hb hab => ?_, fun a ha => ?_⟩
        · rcases ha with rfl | ha <;> rcases hb with rfl | hb
          · exact absurd rfl hab
          · exact (hout b hb).symm
          · exact hout a ha
          · exact hS.apart a ha b hb hab
        · rcases ha with rfl | ha
          · omega
          · exact hS.small a ha
      refine ⟨insert nb {b | b ∈ L}, hapart, h.split hapart hcL hnot hnext hreq hrem fun h0 => hF.head_links h0,
        Or.inr hcL, fun b hb => ?_, fun b hb => ?_⟩
      · rcases hb with rfl | hb
        · exact Or.inr (Set.Ico_subset_Ico (by omega) (by omega))
        · exact Or.inl hb
      · have hne : cur ≠ nb := fun he => hnot (he ▸ hcL)
        have hlinks : (groupSplit g cur req).next = update (update g.next nb (g.next cur)) cur nb := by
          simp [groupSplit, hrem, ← hnb, hne]
        rw [hlinks]
        by_cases hbc : b = cur
        · rw [hbc, Function.update_self]
          exact Or.inl rfl
        · rw [Function.update_of_ne hbc]
          by_cases hbn : b = nb
          · rw [hbn, Function.update_self]
            exact Or.inr hnext
          · rw [Function.update_of_ne hbn]
            exact Or.inr (hs.ring.fwd_mem (hb.resolve_left hbn)).1
    · have hsame : groupSplit g cur req = g := by simp [groupSplit, hrem]
      have hsame' : c.split cur req = c := by
        have hsize : c.get .size cur = g.size cur := h.field cur hcL .size
        unfold ByteGroup.split
        rw [hsize]
        exact if_neg hrem
      rw [hsame, hsame']
      exact ⟨{b | b ∈ L}, hS, h, hcL, fun b hb => Or.inl hb, fun b hb => (hs.ring.fwd_mem hb).1⟩
  have hL' := hs'.ring.toFwd.subset_of_closed ((hF'.mem cur).mp hcur').1 hcT hclosed
  have hrem := hsim.remove hT hcT fun _ _ => (hF'.links hcur').imp (hL' _) (hL' _)
  have huser := hrem.put hT .userSize hcT hsize
  refine ⟨T, ⟨huser.field, huser.isFree, huser.freeList, huser.memoryStart, huser.totalSize, ?_, ?_, huser.totalFreed,
    huser.frame⟩, hcT, hsub, ?_⟩
  · exact congrArg (fun n => (n + 1) % wordSize) huser.currentBlocks
  · exact congrArg (fun n => (n + size) % wordSize) huser.totalAllocated
  · have hlinks : (groupTake g cur req size).next = (groupSplit g cur req).next := by simp [groupTake]
    rw [hlinks]
    exact hclosed

/-- A malloc on the bytes fails or takes the same block as on the arrays, and changes only
headers and the block that it takes. -/
theorem Sim.malloc (h : Sim {b | b ∈ L} c.mem c g) (hinv : GroupInv g live lo L F) (hhi : lo + g.totalSize ≤ wordSize)
    (hn : n < wordSize) :
    (c.malloc n = some (0, c) ∧ groupMalloc g n = some (0, g)) ∨
      ∃ cur c' g', cur ∈ L ∧ g.isFree cur = true ∧ c.malloc n = some (cur + headerSize, c') ∧
        groupMalloc g n = some (cur + headerSize, g') ∧ (n + 7 < wordSize → n ≤ g'.size cur) ∧
        (∀ i, (∀ b ∈ L, i ∉ header b) → i ∉ extent g cur → c'.mem i = c.mem i) ∧
        ∀ L', Ring (Both g'.next g'.prev) L' → cur ∈ L' → Sim {b | b ∈ L'} c'.mem c' g' := by
  unfold ByteGroup.malloc groupMalloc
  rw [h.freeList, h.currentBlocks, h.totalSize]
  by_cases hfail : n = 0 ∨ g.freeList = 0 ∨ maxBlocks ≤ g.currentBlocks
  · rw [if_pos hfail, if_pos hfail]
    exact Or.inl ⟨rfl, rfl⟩
  · have hne : g.freeList ≠ 0 := fun he => hfail (Or.inr (Or.inl he))
    have hwalk : ∀ b ∈ F, b ∈ {b | b ∈ L} ∧ g.freeNext b ∈ F := fun b hb =>
      ⟨((hinv.free.mem b).mp hb).1, (hinv.free.ring.fwd_mem hb).1⟩
    have hsearch : c.search (alignUp n) g.totalSize g.freeList = groupSearch g (alignUp n) g.totalSize g.freeList :=
      h.search hwalk (hinv.free.head_mem hne) g.totalSize
    rw [if_neg hfail, if_neg hfail]
    dsimp only
    rw [hsearch, groupSearch_freeList hinv.free hinv.shape hne (alignUp n)]
    rcases hfind : F.find? (fun c => alignUp n ≤ g.size c) with _ | cur
    · exact Or.inl ⟨rfl, rfl⟩
    · have hcur := List.mem_of_find?_eq_some hfind
      have hfit : alignUp n ≤ g.size cur := by simpa using List.find?_some hfind
      obtain ⟨hcL, hcf⟩ := (hinv.free.mem cur).mp hcur
      have hc0 : cur ≠ 0 := (hinv.shape.pos_of_mem hcL).ne'
      have hpos : n ≠ 0 := fun he => hfail (Or.inl he)
      obtain ⟨_, _, -, -, hcut, -⟩ := groupTake_spec hinv.shape hinv.free hcur hfit (alignUp_dvd n) n
      obtain ⟨T, hT, hcT, hsub, hclosed⟩ := h.take hinv.shape hinv.free hhi hcur hfit (alignUp_dvd n) (alignUp_lt n) hn
      right
      refine ⟨cur, c.take cur (alignUp n) n, groupTake g cur (alignUp n) n, hcL, hcf, if_neg hc0, if_neg hc0,
        fun hround => ?_,
        fun i hi hc => hT.frame i fun b hb => ?_, fun L' hring hcur' => ?_⟩
      · have hle : n ≤ alignUp n := by
          unfold alignUp
          rw [Nat.mod_eq_of_lt hround]
          omega
        rcases hcut with ⟨-, hsize, -⟩ | ⟨-, nb, -, hsize, -⟩ <;> omega
      · rcases hsub b hb with hbL | hin
        · exact hi b hbL
        · exact fun him => hc (hin him)
      · exact hT.restrict (hring.toFwd.subset_of_closed hcur' hcT hclosed)

/-- The free list between the last merge and the insertion: the block to insert is not in it. -/
theorem mergePrev_freeList (hs : Shape g lo L) (hF : FreeList g L F) (hb : b ∈ L) (hf : g.isFree b = false) :
    ∃ L' F', FreeList (mergePrev g b).2 L' F' ∧ (∀ a ∈ L', a ∈ L) ∧ (mergePrev g b).1 ∈ L ∧ (mergePrev g b).1 ∉ F' := by
  have hp := hs.ring.bwd_mem hb
  have hp0 : g.prev b ≠ 0 := (hs.pos_of_mem hp.1).ne'
  by_cases hfree : g.isFree (g.prev b) = true
  · have hne : g.prev b ≠ b := fun he => by simp [he, hf] at hfree
    have hpF : g.prev b ∈ F := (hF.mem _).mpr ⟨hp.1, hfree⟩
    have hfst : (mergePrev g b).1 = g.prev b := by simp [mergePrev, hp0, hfree]
    refine ⟨L.erase b, F.erase (g.prev b), ?_, fun a => List.mem_of_mem_erase, hfst ▸ hp.1, ?_⟩
    · refine (hF.remove hpF hp0).congr ?_ ?_ ?_ fun x => ?_
      any_goals simp [mergePrev, hp0, hfree]
      rw [hs.tiles.nodup.mem_erase_iff, removeFromFreeList_isFree _ _ hp0]
      by_cases hx : x = b <;> simp [hx, hf, Ne.symm hne]
    · rw [hfst, hF.nodup.mem_erase_iff]
      exact fun hm => hm.1 rfl
  · have hsame : mergePrev g b = (b, g) := by simp [mergePrev, hfree]
    rw [hsame]
    exact ⟨L, F, hF, fun _ => id, hb, fun hm => by simp [((hF.mem b).mp hm).2] at hf⟩

/-- A merge links blocks with blocks. -/
theorem mergeNext_next_mem (hs : Shape g lo L) (hb : b ∈ L) (ha : a ∈ L) : (mergeNext g b).next a ∈ L := by
  unfold mergeNext
  split
  · simp only [removeFromFreeList_next]
    by_cases hab : a = b
    · rw [hab, Function.update_self]
      exact (hs.ring.fwd_mem (hs.ring.fwd_mem hb).1).1
    · rw [Function.update_of_ne hab]
      exact (hs.ring.fwd_mem ha).1
  · exact (hs.ring.fwd_mem ha).1

theorem mergePrevInsert_next_mem {S : Set ℕ} (hclosed : ∀ a ∈ S, g.next a ∈ S) (hb : b ∈ S) (ha : a ∈ S) :
    (mergePrevInsert g b).next a ∈ S := by
  have hmerged : (mergePrev g b).2.next a ∈ S := by
    unfold mergePrev
    split
    · simp only [removeFromFreeList_next, removeFromFreeList_prev]
      by_cases hap : a = g.prev b
      · rw [hap, Function.update_self]
        exact hclosed b hb
      · rw [Function.update_of_ne hap]
        exact hclosed a ha
    · exact hclosed a ha
  rw [mergePrevInsert, insertIntoFreeList_next]
  exact hmerged

/-- Taking back a block stores into headers of the blocks only. -/
theorem Sim.giveBack (h : Sim {b | b ∈ L} m₀ c g) (hs : Shape g lo L) (hF : FreeList g L F)
    (hhi : lo + g.totalSize ≤ wordSize) (hb : b ∈ L) (hf : g.isFree b = false) :
    Sim {b | b ∈ L} m₀
        (((c.mergeNext b).mergePrev b).2.insertIntoFreeList ((c.mergeNext b).mergePrev b).1)
        (mergePrevInsert (Memory.mergeNext g b) b) ∧
      (∀ a ∈ L, (mergePrevInsert (Memory.mergeNext g b) b).next a ∈ L) ∧
      (mergePrevInsert (Memory.mergeNext g b) b).freeList ∈ L := by
  have hS := hs.apart hhi
  have h₁ := h.mergeNext hS hb (fun a ha => (hs.ring.fwd_mem ha).1) fun hfree =>
    hF.links ((hF.mem _).mpr ⟨(hs.ring.fwd_mem hb).1, hfree⟩)
  obtain ⟨L₁, F₁, hs₁, hF₁, hb₁, hf₁, -, -⟩ := mergeNext_spec hs hF hb hf
  have hclosed₁ (a : ℕ) (ha : a ∈ L) : (Memory.mergeNext g b).next a ∈ L := mergeNext_next_mem hs hb ha
  have hL₁ : ∀ a ∈ L₁, a ∈ L := hs₁.ring.toFwd.subset_of_closed hb₁ hb hclosed₁
  have hprev := (hs₁.ring.bwd_mem hb₁).1
  obtain ⟨hfst, h₂⟩ := h₁.mergePrev hS hb (hclosed₁ b hb) (hL₁ _ hprev) fun hfree =>
    (hF₁.links ((hF₁.mem _).mpr ⟨hprev, hfree⟩)).imp (hL₁ _) (hL₁ _)
  obtain ⟨L₂, F₂, hF₂, hL₂, hpb, hnot⟩ := mergePrev_freeList hs₁ hF₁ hb₁ hf₁
  rw [hfst]
  refine ⟨h₂.insertFree hS (hL₁ _ hpb) fun h0 => ?_, fun a ha => mergePrevInsert_next_mem hclosed₁ hb ha, ?_⟩
  · obtain ⟨hhead, htail⟩ := hF₂.head_links h0
    exact ⟨hL₁ _ (hL₂ _ hhead), hL₁ _ (hL₂ _ htail), fun he => hnot (he ▸ hF₂.head_mem h0)⟩
  · have hhead : (mergePrevInsert (Memory.mergeNext g b) b).freeList =
        (Memory.mergePrev (Memory.mergeNext g b) b).1 := by
      rw [mergePrevInsert, insertIntoFreeList]
      dsimp only
      split_ifs <;> rfl
    rw [hhead]
    exact hL₁ _ hpb

/-- The bytes when the block `b` has been merged and put on the free list. -/
def ByteGroup.merged (c : ByteGroup) (b : ℕ) : ByteGroup :=
  ((c.mergeNext b).mergePrev b).2.insertIntoFreeList ((c.mergeNext b).mergePrev b).1

theorem ByteGroup.free_eq (hf : c.isFree b = false) (huser : c.get .userSize b ≠ 0)
    (hlow : c.memoryStart + headerSize ≤ b + headerSize) (hhigh : b + headerSize < c.memoryStart + c.totalSize) :
    c.free (b + headerSize) = (c.get .userSize b, { (c.put .userSize b 0).merged b with
      currentBlocks := (((c.put .userSize b 0).merged b).currentBlocks + (wordSize - 1)) % wordSize
      totalFreed := (((c.put .userSize b 0).merged b).totalFreed + c.get .userSize b) % wordSize }) := by
  have hb0 : b + headerSize ≠ 0 := by simp [headerSize]
  have hrange : ¬(b + headerSize < c.memoryStart + headerSize ∨ c.memoryStart + c.totalSize ≤ b + headerSize) := by
    omega
  have hmark : ¬(c.isFree b = true ∨ c.get .userSize b = 0) := by
    rw [hf]
    simpa using huser
  unfold ByteGroup.free
  rw [if_neg hb0, if_neg hrange, Nat.add_sub_cancel]
  dsimp only
  rw [if_neg hmark]
  rfl

/-- A free on the bytes refuses the pointer or takes back the same block as on the arrays,
and changes only headers. -/
theorem Sim.free (h : Sim {b | b ∈ L} c.mem c g) (hinv : GroupInv g live lo L F) (hhi : lo + g.totalSize ≤ wordSize)
    (hptr : ptr ∈ live) :
    (c.free ptr = (0, c) ∧ groupFree g ptr = (0, g)) ∨
      ∃ freed c' g', freed ≠ 0 ∧ c.free ptr = (freed, c') ∧ groupFree g ptr = (freed, g') ∧
        ptr < g.memoryStart + g.totalSize ∧
        (∀ i, (∀ b ∈ L, i ∉ header b) → c'.mem i = c.mem i) ∧
        ∀ L' F', Ring (Both g'.next g'.prev) L' → FreeList g' L' F' →
          (∀ b ∈ L', b ∈ L) ∧ Sim {b | b ∈ L'} c'.mem c' g' := by
  obtain ⟨b, hb, hf, rfl⟩ := (hinv.live ptr).mp hptr
  have hb0 : b + headerSize ≠ 0 := by simp [headerSize]
  have huser := hinv.user b hb hf
  have hload : c.get .userSize b = g.userSize b := h.field b hb .userSize
  by_cases hrange : b + headerSize < g.memoryStart + headerSize ∨ g.memoryStart + g.totalSize ≤ b + headerSize
  · left
    unfold ByteGroup.free groupFree
    rw [h.memoryStart, h.totalSize, if_neg hb0, if_neg hb0, if_pos hrange, if_pos hrange]
    exact ⟨rfl, rfl⟩
  · right
    have h₁ := h.put (hinv.shape.apart hhi) .userSize hb wordSize_pos
    have hs₁ : Shape (g.put .userSize b 0) lo L := hinv.shape.congr rfl rfl rfl rfl
    have hF₁ : FreeList (g.put .userSize b 0) L F := ⟨hinv.free.ring, hinv.free.head, hinv.free.nodup, hinv.free.mem⟩
    obtain ⟨h₂, hclosed, hhead⟩ := h₁.giveBack hs₁ hF₁ hhi hb hf
    have hrun := ByteGroup.free_eq ((h.isFree b hb).trans hf) (hload.trans_ne huser)
      (by rw [h.memoryStart]; omega) (by rw [h.memoryStart, h.totalSize]; omega)
    have hrun' : groupFree g (b + headerSize) = (g.userSize b,
        { mergePrevInsert (Memory.mergeNext (g.put .userSize b 0) b) b with
          currentBlocks :=
            ((mergePrevInsert (Memory.mergeNext (g.put .userSize b 0) b) b).currentBlocks + (wordSize - 1)) % wordSize
          totalFreed :=
            ((mergePrevInsert (Memory.mergeNext (g.put .userSize b 0) b) b).totalFreed + g.userSize b) % wordSize }) :=
      groupFree_eq hf huser (by omega) (by omega)
    rw [hload] at hrun
    set c₁ := (c.put .userSize b 0).merged b with hc₁
    have hsim : Sim {b | b ∈ L} c.mem c₁ (mergePrevInsert (Memory.mergeNext (g.put .userSize b 0) b) b) := h₂
    set g₁ := mergePrevInsert (Memory.mergeNext (g.put .userSize b 0) b) b with hg₁
    have hblocks : (c₁.currentBlocks + (wordSize - 1)) % wordSize = (g₁.currentBlocks + (wordSize - 1)) % wordSize := by
      rw [hsim.currentBlocks]
    have hfreed : (c₁.totalFreed + g.userSize b) % wordSize = (g₁.totalFreed + g.userSize b) % wordSize := by
      rw [hsim.totalFreed]
    have hsim₂ := hsim.setCounts hblocks hsim.totalAllocated hfreed
    have hframe : ∀ i, (∀ b ∈ L, i ∉ header b) → c₁.mem i = c.mem i := fun i hi => hsim.frame i hi
    have hend : b + headerSize < g.memoryStart + g.totalSize := by omega
    refine ⟨g.userSize b, _, _, huser, hrun, hrun', hend, ?_, fun L' F' hring hfree => ?_⟩
    · dsimp only
      exact hframe
    · have hne : g₁.freeList ≠ 0 := (hinv.shape.pos_of_mem hhead).ne'
      have hsub := hring.toFwd.subset_of_closed (hfree.head_links hne).1 hhead hclosed
      exact ⟨hsub, hsim₂.restrict hsub⟩

/-! ### Clients that store -/

inductive ByteCall where
  | malloc (size : ℕ)
  | free (ptr : ℕ)
  | store (i : ℕ) (x : UInt8)

/-- The size can be rounded up. -/
def ByteCall.Roundable : ByteCall → Prop
  | .malloc n => n + 7 < wordSize
  | _ => True

/-- The allocator, the pointers that it handed out and has not taken back, how many bytes
were asked for with each, and what was last stored at each address of a block, or found
there when the block was handed out. -/
structure ByteRun where
  heap : ByteGroup
  live : List ℕ
  granted : ℕ → ℕ
  written : Bytes

namespace ByteRun

/-- A block of `n` bytes is handed out at `ptr`, or none. -/
def granting (s : ByteRun) (n ptr : ℕ) (c : ByteGroup) : ByteRun :=
  if ptr = 0 then { s with heap := c } else
    { heap := c
      live := ptr :: s.live
      granted := update s.granted ptr n
      written := fun i => if ptr ≤ i ∧ i < ptr + n then c.mem i else s.written i }

/-- The block at `ptr` is taken back, if it is one. -/
def freeing (s : ByteRun) (ptr freed : ℕ) (c : ByteGroup) : ByteRun :=
  { s with heap := c, live := if freed = 0 then s.live else s.live.erase ptr }

theorem granting_of_ne {s : ByteRun} {n ptr : ℕ} {c : ByteGroup} (h : ptr ≠ 0) : s.granting n ptr c =
    { heap := c
      live := ptr :: s.live
      granted := update s.granted ptr n
      written := fun i => if ptr ≤ i ∧ i < ptr + n then c.mem i else s.written i } := if_neg h

theorem freeing_of_ne {s : ByteRun} {ptr freed : ℕ} {c : ByteGroup} (h : freed ≠ 0) :
    s.freeing ptr freed c = { s with heap := c, live := s.live.erase ptr } := by
  rw [freeing, if_neg h]

def storing (s : ByteRun) (i : ℕ) (x : UInt8) : ByteRun :=
  { s with heap := { s.heap with mem := update s.heap.mem i x }, written := update s.written i x }

end ByteRun

/-- Clients of the allocator over `size` bytes from `start` on. They store only into bytes
that they asked for. -/
def byteSystem (start size : ℕ) : System ByteRun ByteCall where
  init s := ∃ c : ByteGroup, s.heap = c.init start size ∧ s.live = []
  step s call t :=
    match call with
    | .malloc n => n < wordSize ∧ ∃ ptr c, s.heap.malloc n = some (ptr, c) ∧ t = s.granting n ptr c
    | .free ptr => ptr ∈ s.live ∧ ∃ freed c, s.heap.free ptr = (freed, c) ∧ t = s.freeing ptr freed c
    | .store i x => (∃ p ∈ s.live, p ≤ i ∧ i < p + s.granted p) ∧ t = s.storing i x

/-- The arrays `g`, with the block list `L` and the free list `F`, describe the bytes, and the
blocks hold what was stored in them. -/
structure Isolated (start size : ℕ) (s : ByteRun) (g : Group) (lo : ℕ) (L F : List ℕ) : Prop where
  inv : GroupInv g s.live lo L F
  sim : Sim {b | b ∈ L} s.heap.mem s.heap g
  reach : (groupSystem start size).Reach (fun _ _ => True) ⟨g, s.live⟩
  memoryStart : g.memoryStart = start
  totalSize : g.totalSize = size
  low : lo < start + 2 * size
  granted : ∀ p ∈ s.live, s.granted p ≤ g.size (p - headerSize)
  same : ∀ p ∈ s.live, ∀ i, p ≤ i → i < p + s.granted p → s.heap.mem i = s.written i

variable {s t : ByteRun} {i p start n : ℕ} {x : UInt8} {call : ByteCall}

theorem Isolated.le_wordSize (h : Isolated start size s g lo L F) (hw : start + 3 * size ≤ wordSize) :
    lo + g.totalSize ≤ wordSize := by
  have hlow := h.low
  rw [h.totalSize]
  omega

/-- The bytes of a client lie in no header. -/
theorem Isolated.not_header (h : Isolated start size s g lo L F) (hp : p ∈ s.live) (hi : p ≤ i)
    (hi' : i < p + s.granted p) : (∀ b ∈ L, i ∉ header b) ∧
      ∀ b ∈ L, b + headerSize ≠ p → i ∉ extent g b := by
  obtain ⟨a, ha, hf, rfl⟩ := (h.inv.live p).mp hp
  have hgrant := h.granted _ hp
  rw [Nat.add_sub_cancel] at hgrant
  have hext (b : ℕ) (hb : b ∈ L) (hne : b + headerSize ≠ a + headerSize) : i ∉ extent g b := by
    have hab : a ≠ b := fun he => hne (by rw [he])
    rw [extent, Set.mem_Ico]
    rcases h.inv.shape.tiles.disjoint ha hb hab with hd | hd <;> omega
  refine ⟨fun b hb him => ?_, hext⟩
  by_cases hne : b + headerSize = a + headerSize
  · have hmem := Set.mem_Ico.mp him
    omega
  · exact hext b hb hne (header_subset g b him)

/-- A store outside of the headers. -/
theorem Sim.storeOutside (h : Sim S m₀ c g) (hi : ∀ b ∈ S, i ∉ header b) (x : UInt8) :
    Sim S (update c.mem i x) { c with mem := update c.mem i x } g := by
  have hbyte (b : ℕ) (hb : b ∈ S) (k : ℕ) (hk : k < headerSize) : update c.mem i x (b + k) = c.mem (b + k) := by
    refine Function.update_of_ne (fun he => hi b hb ?_) ..
    rw [header, Set.mem_Ico]
    omega
  refine ⟨fun b hb f => ?_, fun b hb => ?_, h.freeList, h.memoryStart, h.totalSize, h.currentBlocks,
    h.totalAllocated, h.totalFreed, fun _ _ => rfl⟩
  · have hf := offset_le f
    rw [← h.field b hb f]
    refine congrArg UInt64.toNat (Bytes.wordAt_congr fun j hj hj' => ?_)
    obtain ⟨k, rfl⟩ := Nat.exists_eq_add_of_le hj
    rw [Nat.add_assoc]
    exact hbyte b hb _ (by omega)
  · rw [← h.isFree b hb]
    unfold ByteGroup.isFree
    dsimp only
    rw [hbyte b hb _ isFreeOffset_lt]

theorem Isolated.store (h : Isolated start size s g lo L F) (hp : p ∈ s.live) (hi : p ≤ i)
    (hi' : i < p + s.granted p) (x : UInt8) :
    Isolated start size (s.storing i x) g lo L F where
  inv := h.inv
  sim := h.sim.storeOutside (h.not_header hp hi hi').1 x
  reach := h.reach
  memoryStart := h.memoryStart
  totalSize := h.totalSize
  low := h.low
  granted := h.granted
  same q hq j hj hj' := by
    show update s.heap.mem i x j = update s.written i x j
    rcases eq_or_ne j i with rfl | hji
    · rw [Function.update_self, Function.update_self]
    · rw [Function.update_of_ne hji, Function.update_of_ne hji]
      exact h.same q hq j hj hj'

theorem Isolated.malloc (h : Isolated start size s g lo L F) (hw : start + 3 * size ≤ wordSize)
    (hround : n + 7 < wordSize) (hst : (byteSystem start size).step s (.malloc n) t) :
    ∃ g' L' F', Isolated start size t g' lo L' F' := by
  obtain ⟨hn, ptr, c, hrun, rfl⟩ := hst
  rcases h.sim.malloc h.inv (h.le_wordSize hw) hn with ⟨hfail, -⟩ |
    ⟨cur, c', g', hcL, hcf, hok, hok', hsize, hframe, hsim⟩
  · obtain ⟨rfl, rfl⟩ : 0 = ptr ∧ s.heap = c := by simpa [hrun] using hfail.symm
    exact ⟨g, L, F, h⟩
  · obtain ⟨rfl, rfl⟩ : cur + headerSize = ptr ∧ c' = c := by simpa [hrun] using hok.symm
    have hpos : cur + headerSize ≠ 0 := by simp [headerSize]
    rcases groupMalloc_spec h.inv n with hno | ⟨cur', g₁, L', F', hok₁, hinv, hsame, hstart, htotal, -⟩
    · rw [hok'] at hno
      have hzero := congrArg Prod.fst (Option.some.inj hno)
      exact absurd hzero hpos
    · obtain ⟨he, rfl⟩ : cur + headerSize = cur' + headerSize ∧ g' = g₁ := by simpa [hok'] using hok₁
      obtain rfl : cur = cur' := Nat.add_right_cancel he
      rw [ByteRun.granting_of_ne hpos]
      have hcL' := (hinv.mem_live.mp List.mem_cons_self).1
      have hnew : ∀ p ∈ s.live, p ≠ cur + headerSize := fun p hp he =>
        (List.nodup_cons.mp hinv.nodup).1 (he ▸ hp)
      refine ⟨g', L', F', hinv, hsim L' hinv.shape.ring hcL', ?_, hstart.trans h.memoryStart,
        htotal.trans h.totalSize, h.low, fun p hp => ?_, fun p hp i hi hi' => ?_⟩
      · refine h.reach.step (a := .malloc n) trivial ⟨hn, cur + headerSize, g', hok', ?_⟩
        rw [if_neg hpos]
      · dsimp only at hp ⊢
        rcases List.mem_cons.mp hp with rfl | hp
        · rw [Function.update_self, Nat.add_sub_cancel]
          exact hsize hround
        · rw [Function.update_of_ne (hnew p hp), (hsame p hp (hnew p hp)).1]
          exact h.granted p hp
      · -- a byte of the new block, or one of another client
        dsimp only at hi' ⊢
        by_cases hin : cur + headerSize ≤ i ∧ i < cur + headerSize + n
        · rw [if_pos hin]
        · rw [if_neg hin]
          rcases List.mem_cons.mp hp with rfl | hp
          · rw [Function.update_self] at hi'
            exact absurd ⟨hi, hi'⟩ hin
          · rw [Function.update_of_ne (hnew p hp)] at hi'
            obtain ⟨hhdr, hext⟩ := h.not_header hp hi hi'
            rw [hframe i hhdr (hext cur hcL (hnew p hp).symm)]
            exact h.same p hp i hi hi'

theorem Isolated.free (h : Isolated start size s g lo L F) (hw : start + 3 * size ≤ wordSize)
    (hst : (byteSystem start size).step s (.free p) t) : ∃ g' lo' L' F', Isolated start size t g' lo' L' F' := by
  obtain ⟨hp, freed, c, hrun, rfl⟩ := hst
  rcases h.sim.free h.inv (h.le_wordSize hw) hp with ⟨hfail, -⟩ |
    ⟨freed', c', g', hf0, hok, hok', hend, hframe, hsim⟩
  · obtain ⟨rfl, rfl⟩ : 0 = freed ∧ s.heap = c := by simpa [hrun] using hfail.symm
    exact ⟨g, lo, L, F, h⟩
  · obtain ⟨rfl, rfl⟩ : freed' = freed ∧ c' = c := by simpa [hrun] using hok.symm
    rcases groupFree_spec h.inv hp with hno | ⟨freed₁, g₁, lo', L', F', hok₁, -, hinv, hlo, hsame, hstart, htotal, -⟩
    · rw [hok'] at hno
      exact absurd (congrArg Prod.fst hno) hf0
    · obtain ⟨rfl, rfl⟩ : freed' = freed₁ ∧ g' = g₁ := by simpa [hok'] using hok₁
      obtain ⟨hsub, hsim'⟩ := hsim L' F' hinv.shape.ring hinv.free
      have hother : ∀ q ∈ s.live.erase p, q ∈ s.live ∧ q ≠ p := fun q hq =>
        ⟨List.mem_of_mem_erase hq, (h.inv.nodup.mem_erase_iff.mp hq).1⟩
      have hlow : lo' < start + 2 * size := by
        -- a block is taken back only inside of the region
        obtain ⟨a, ha, -, rfl⟩ := (h.inv.live p).mp hp
        have hbound := h.inv.shape.tiles.bounds ha
        rcases hL' : L' with _ | ⟨b, B⟩
        · exact absurd hL' hinv.shape.ne_nil
        · rw [hL'] at hinv hsub
          have hb := h.inv.shape.tiles.bounds (hsub b List.mem_cons_self)
          have hhead := hinv.shape.head
          rw [h.memoryStart, h.totalSize] at hend
          rw [h.totalSize] at hb
          simp only [headerSize] at *
          omega
      rw [ByteRun.freeing_of_ne hf0]
      refine ⟨g', lo', L', F', hinv, hsim', ?_, hstart.trans h.memoryStart, htotal.trans h.totalSize, hlow,
        fun q hq => ?_, fun q hq i hi hi' => ?_⟩
      · refine h.reach.step (a := .free p) trivial ⟨hp, freed', g', hok', ?_⟩
        rw [if_neg hf0]
      · obtain ⟨hq, hne⟩ := hother q hq
        rw [(hsame q hq hne).1]
        exact h.granted q hq
      · obtain ⟨hq, -⟩ := hother q hq
        rw [hframe i (h.not_header hq hi hi').1]
        exact h.same q hq i hi hi'

theorem Isolated.step (h : Isolated start size s g lo L F) (hw : start + 3 * size ≤ wordSize) (hok : call.Roundable)
    (hst : (byteSystem start size).step s call t) : ∃ g' lo' L' F', Isolated start size t g' lo' L' F' := by
  cases call with
  | malloc n =>
    obtain ⟨g', L', F', h'⟩ := h.malloc hw hok hst
    exact ⟨g', lo, L', F', h'⟩
  | free p => exact h.free hw hst
  | store i x =>
    obtain ⟨⟨p, hp, hi, hi'⟩, rfl⟩ := hst
    exact ⟨g, lo, L, F, h.store hp hi hi' x⟩

/-! ### The blocks of others -/

/-- The bytes of two blocks are different ones. -/
theorem Isolated.apart {q : ℕ} (h : Isolated start size s g lo L F) (hp : p ∈ s.live) (hq : q ∈ s.live) (hne : p ≠ q)
    (hi : p ≤ i) (hi' : i < p + s.granted p) : i < q ∨ q + s.granted q ≤ i := by
  obtain ⟨b, hb, -, rfl⟩ := (h.inv.live q).mp hq
  have hgrant := h.granted _ hq
  rw [Nat.add_sub_cancel] at hgrant
  have hout := (h.not_header hp hi hi').2 b hb (Ne.symm hne)
  rw [extent, Set.mem_Ico] at hout
  omega

/-- The call does not give the block back and does not store in it. -/
def ByteCall.Spares (s : ByteRun) (p : ℕ) : ByteCall → Prop
  | .malloc _ => True
  | .free q => q ≠ p
  | .store i _ => i < p ∨ p + s.granted p ≤ i

/-- A block and what was stored in it are as before. -/
structure Kept (s t : ByteRun) (p : ℕ) : Prop where
  live : p ∈ t.live
  granted : t.granted p = s.granted p
  written : ∀ i, p ≤ i → i < p + s.granted p → t.written i = s.written i

/-- Only calls on a block change it. -/
theorem Isolated.kept {g' : Group} {lo' : ℕ} {L' F' : List ℕ} (h' : Isolated start size t g' lo' L' F')
    (hst : (byteSystem start size).step s call t) (hp : p ∈ s.live) (hspare : call.Spares s p) : Kept s t p := by
  cases call with
  | malloc n =>
    obtain ⟨-, ptr, c, -, rfl⟩ := hst
    by_cases hz : ptr = 0
    · subst hz
      exact ⟨hp, rfl, fun _ _ _ => rfl⟩
    · rw [ByteRun.granting_of_ne hz] at h' ⊢
      have hne : p ≠ ptr := fun he => (List.nodup_cons.mp h'.inv.nodup).1 (he ▸ hp)
      have hgrant : update s.granted ptr n p = s.granted p := Function.update_of_ne hne ..
      refine ⟨List.mem_cons_of_mem _ hp, hgrant, fun i hi hi' => if_neg ?_⟩
      have hout := h'.apart (i := i) (List.mem_cons_of_mem _ hp) List.mem_cons_self hne hi (by
        dsimp only
        rwa [hgrant])
      dsimp only at hout
      rw [Function.update_self] at hout
      omega
  | free q =>
    obtain ⟨-, freed, c, -, rfl⟩ := hst
    have hlive : p ∈ (s.freeing q freed c).live := by
      unfold ByteRun.freeing
      dsimp only
      split
      · exact hp
      · exact (List.mem_erase_of_ne (Ne.symm hspare)).mpr hp
    exact ⟨hlive, rfl, fun _ _ _ => rfl⟩
  | store j x =>
    obtain ⟨-, rfl⟩ := hst
    refine ⟨hp, rfl, fun i hi hi' => Function.update_of_ne ?_ ..⟩
    rintro rfl
    rcases hspare with hlt | hge <;> omega

/-- The bytes as arrays. -/
def ByteGroup.arrays (c : ByteGroup) : Group where
  size := c.get .size
  userSize := c.get .userSize
  isFree := c.isFree
  next := c.get .next
  prev := c.get .prev
  freeNext := c.get .freeNext
  freePrev := c.get .freePrev
  freeList := c.freeList
  memoryStart := c.memoryStart
  totalSize := c.totalSize
  currentBlocks := c.currentBlocks
  totalAllocated := c.totalAllocated
  totalFreed := c.totalFreed

theorem ByteGroup.arrays_sim (c : ByteGroup) : Sim S c.mem c c.arrays :=
  ⟨fun _ _ f => by cases f <;> rfl, fun _ _ => rfl, rfl, rfl, rfl, rfl, rfl, rfl, fun _ _ => rfl⟩

theorem init_isolated (h0 : 0 < start) (h8 : 8 ∣ size) (hsz : headerSize < size) (hw : start + 3 * size ≤ wordSize)
    (hs : (byteSystem start size).init s) : ∃ g lo L F, Isolated start size s g lo L F := by
  obtain ⟨c, hheap, hlive⟩ := hs
  have hlt : start < wordSize := by omega
  have hS : Apart {b | b ∈ [start]} := by
    refine ⟨fun a ha b hb hab => absurd ?_ hab, fun a ha => ?_⟩
    · exact (List.mem_singleton.mp ha).trans (List.mem_singleton.mp hb).symm
    · rwa [List.mem_singleton.mp ha]
  have hsim := (c.arrays_sim (S := {b | b ∈ [start]})).init hS List.mem_cons_self size
  have hinv := groupInit_inv c.arrays h0 h8 hsz (by omega : size < wordSize)
  refine ⟨groupInit c.arrays start size, start, [start], [start], hlive ▸ hinv, ?_, ?_, ?_, ?_, by omega, ?_, ?_⟩
  · rw [hheap]
    exact hsim.restrict fun _ => id
  · rw [hlive]
    exact .init ⟨c.arrays, rfl⟩
  · simp [groupInit]
  · simp [groupInit]
  · simp [hlive]
  · simp [hlive]

/-- In every run the allocator on the bytes has handed out the blocks that the allocator on
arrays hands out, the headers of all blocks say what its arrays say, and each byte of
a block is what was last stored there. -/
theorem bytes_isolated (h0 : 0 < start) (h8 : 8 ∣ size) (hsz : headerSize < size) (hw : start + 3 * size ≤ wordSize)
    (h : (byteSystem start size).Reach (fun _ call => call.Roundable) s) :
    ∃ g, (groupSystem start size).Reach (fun _ _ => True) ⟨g, s.live⟩ ∧
      (∃ L F, BlockLists ⟨g, s.live⟩ L F ∧
        ∀ b ∈ L, (∀ f, s.heap.get f b = g.get f b) ∧ s.heap.isFree b = g.isFree b) ∧
      ∀ p ∈ s.live, ∀ i, p ≤ i → i < p + s.granted p → s.heap.mem i = s.written i := by
  obtain ⟨g, lo, L, F, hiso⟩ := h.invariant (I := fun s => ∃ g lo L F, Isolated start size s g lo L F)
    (fun s hs => init_isolated h0 h8 hsz hw hs) fun s call t ⟨g, lo, L, F, hiso⟩ hok hst => hiso.step hw hok hst
  exact ⟨g, hiso.reach, ⟨L, F, hiso.inv.blockLists, fun b hb => ⟨hiso.sim.field b hb, hiso.sim.isFree b hb⟩⟩, hiso.same⟩

/-- A memory of zeros. -/
def zeroBytes : ByteGroup := ⟨fun _ => 0, 0, 0, 0, 0, 0, 0⟩

/-- One client with eight bytes, in a region of 512. -/
theorem bytes_isolated_one :
    ∃ s, (byteSystem 8 512).Reach (fun _ call => call.Roundable) s ∧ s.live = [64] ∧ s.granted 64 = 8 ∧
      ∀ i, 64 ≤ i → i < 72 → s.heap.mem i = s.written i := by
  obtain ⟨⟨ptr, c⟩, hrun, hptr⟩ : ∃ r, (zeroBytes.init 8 512).malloc 8 = some r ∧ r.1 = 64 :=
    Option.map_eq_some_iff.mp (show ((zeroBytes.init 8 512).malloc 8).map Prod.fst = some 64 by decide +kernel)
  obtain rfl : ptr = 64 := hptr
  set s : ByteRun := ⟨zeroBytes.init 8 512, [], fun _ => 0, fun _ => 0⟩ with hs
  set t : ByteRun := ⟨c, [64], update s.granted 64 8, fun i => if 64 ≤ i ∧ i < 64 + 8 then c.mem i else s.written i⟩
    with ht
  have hinit : (byteSystem 8 512).Reach (fun _ call => call.Roundable) s := .init ⟨zeroBytes, rfl, rfl⟩
  have hround : (ByteCall.malloc 8).Roundable := show 8 + 7 < wordSize by decide
  have hreach : (byteSystem 8 512).Reach (fun _ call => call.Roundable) t :=
    hinit.step (a := .malloc 8) hround ⟨by decide, 64, c, hrun, rfl⟩
  obtain ⟨g, -, -, hsame⟩ := bytes_isolated (by decide) (by decide) (by decide) (by decide) hreach
  exact ⟨t, hreach, rfl, rfl, fun i hi hi' => hsame 64 List.mem_cons_self i hi hi'⟩

end BareKernel.Memory

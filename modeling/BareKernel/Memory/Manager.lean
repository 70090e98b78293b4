import BareKernel.Memory.GroupInfo
import BareKernel.Memory.GroupMalloc

/-! The interface of `memory/memory_manager.h`, which each allocator fills in, and what its
reports mean: a client that keeps the pointers it holds, with the sizes it asked for, finds
their number and their sum in them. -/

namespace BareKernel.Memory

open Function (update)
open Links

/-- A call returns `none` where it never ends. -/
structure MemoryManager (H : Type) where
  init : H → ℕ → ℕ → H
  malloc : H → ℕ → Option (ℕ × H)
  free : H → ℕ → Option (ℕ × H)
  getInfo : H → Option MemoryInfo

inductive MemoryCall where
  | malloc (size : ℕ)
  | free (ptr : ℕ)

/-- The manager, the pointers that the client holds with the sizes it asked for, and the sum
of all the sizes that it was granted. -/
structure ManagerRun (H : Type) where
  heap : H
  live : List (ℕ × ℕ)
  asked : ℕ

namespace MemoryManager

variable {H : Type} (M : MemoryManager H)

/-- The run of a client that has just called `init` on a state of the manager. -/
def opened (h : H) (start size : ℕ) : ManagerRun H := ⟨M.init h start size, [], 0⟩

/-- A client that asks for at most the size of the region, and for less than `2 ^ 64` bytes
in all, and that frees what it holds. -/
def client (start size : ℕ) : System (ManagerRun H) MemoryCall where
  init s := ∃ h, s = M.opened h start size
  step s call t :=
    match call with
    | .malloc n => n ≤ size ∧ t.asked < wordSize ∧ ∃ ptr h, M.malloc s.heap n = some (ptr, h) ∧
        t = if ptr = 0 then { s with heap := h } else ⟨h, (ptr, n) :: s.live, s.asked + n⟩
    | .free ptr => ∃ n freed h, (ptr, n) ∈ s.live ∧ M.free s.heap ptr = some (freed, h) ∧
        t = { s with heap := h, live := s.live.erase (ptr, n) }

/-- The sum of the sizes of what the client holds. -/
def owed {H : Type} (s : ManagerRun H) : ℕ := (s.live.map Prod.snd).sum

/-- The counters of a report speak about what the client holds. -/
structure Accounts (s : ManagerRun H) (info : MemoryInfo) : Prop where
  blocks : info.currentBlocks = s.live.length
  balance : info.totalAllocated = owed s + info.totalFreed
  leak : info.memoryLeak = false ↔ s.live = []

/-- The report accounts for what the client holds, and a free returns the size that was
asked for. -/
structure InfoMeans (s : ManagerRun H) : Prop where
  report : ∃ info, M.getInfo s.heap = some info ∧ Accounts s info
  returned : ∀ ptr n, (ptr, n) ∈ s.live → ∃ h, M.free s.heap ptr = some (n, h)

end MemoryManager

section Held

variable {live : List (ℕ × ℕ)} {ptr n : ℕ}

/-- The sizes of what is held, but for one block. -/
theorem owed_erase {H : Type} {s : ManagerRun H} (h : (ptr, n) ∈ s.live) :
    MemoryManager.owed s = n + ((s.live.erase (ptr, n)).map Prod.snd).sum :=
  ((List.perm_cons_erase h).map Prod.snd).sum_nat

/-- A pointer is held once. -/
theorem map_fst_erase (hnd : (live.map Prod.fst).Nodup) (h : (ptr, n) ∈ live) :
    (live.erase (ptr, n)).map Prod.fst = (live.map Prod.fst).erase ptr := by
  induction live with
  | nil => cases h
  | cons x live ih =>
    rw [List.map_cons, List.nodup_cons] at hnd
    by_cases hx : x = (ptr, n)
    · subst hx
      rw [List.erase_cons_head, List.map_cons, List.erase_cons_head]
    · have hmem : (ptr, n) ∈ live := (List.mem_cons.mp h).resolve_left (Ne.symm hx)
      have hfst : x.1 ≠ ptr := by
        rintro rfl
        exact hnd.1 (List.mem_map.mpr ⟨_, hmem, rfl⟩)
      rw [List.erase_cons_tail (by simpa using hx), List.map_cons, List.map_cons,
        List.erase_cons_tail (by simpa using hfst), ih hnd.2 hmem]

end Held

/-! ### The group manager -/

def groupManager : MemoryManager Group where
  init := groupInit
  malloc := groupMalloc
  free g ptr := some (groupFree g ptr)
  getInfo := groupGetInfo

open MemoryManager

variable {g g' : Group} {s t : ManagerRun Group} {call : MemoryCall} {lo start size n ptr b : ℕ} {L F live : List ℕ}

section Totals

variable (g : Group) (b : ℕ)

@[simp] theorem removeFromFreeList_totals :
    (removeFromFreeList g b).totalAllocated = g.totalAllocated ∧
      (removeFromFreeList g b).totalFreed = g.totalFreed := by
  unfold removeFromFreeList; dsimp only; split_ifs <;> exact ⟨rfl, rfl⟩

@[simp] theorem insertIntoFreeList_totals :
    (insertIntoFreeList g b).totalAllocated = g.totalAllocated ∧
      (insertIntoFreeList g b).totalFreed = g.totalFreed := by
  unfold insertIntoFreeList; dsimp only; split_ifs <;> exact ⟨rfl, rfl⟩

@[simp] theorem groupSplit_totals (req : ℕ) :
    (groupSplit g b req).totalAllocated = g.totalAllocated ∧ (groupSplit g b req).totalFreed = g.totalFreed := by
  unfold groupSplit; dsimp only; split_ifs <;> simp

@[simp] theorem mergeNext_totals :
    (mergeNext g b).totalAllocated = g.totalAllocated ∧ (mergeNext g b).totalFreed = g.totalFreed := by
  unfold mergeNext; dsimp only; split_ifs <;> simp

@[simp] theorem mergePrevInsert_totals :
    (mergePrevInsert g b).totalAllocated = g.totalAllocated ∧ (mergePrevInsert g b).totalFreed = g.totalFreed := by
  unfold mergePrevInsert mergePrev; dsimp only; split_ifs <;> simp

end Totals

theorem groupTake_totals (g : Group) (cur req n : ℕ) :
    (groupTake g cur req n).totalAllocated = (g.totalAllocated + n) % wordSize ∧
      (groupTake g cur req n).totalFreed = g.totalFreed := by
  simp [groupTake]

theorem groupGiveBack_totals (g : Group) (b : ℕ) :
    (groupGiveBack g b).totalAllocated = g.totalAllocated ∧
      (groupGiveBack g b).totalFreed = (g.totalFreed + g.userSize b) % wordSize := by
  simp [groupGiveBack]

theorem groupGetInfo_counters {info : MemoryInfo} (h : groupGetInfo g = some info) :
    info.totalAllocated = g.totalAllocated ∧ info.totalFreed = g.totalFreed ∧
      info.currentBlocks = g.currentBlocks ∧ info.memoryLeak = (g.totalAllocated != g.totalFreed) := by
  obtain ⟨walk, -, rfl⟩ := Option.map_eq_some_iff.mp h
  exact ⟨rfl, rfl, rfl, rfl⟩

/-- What a malloc does to the counters and to the block it hands out. -/
theorem groupMalloc_books (h : GroupInv g live lo L F) (hn : n + 8 ≤ wordSize)
    (hrun : groupMalloc g n = some (ptr, g')) :
    (ptr = 0 ∧ g' = g) ∨ ptr ≠ 0 ∧ g'.totalAllocated = (g.totalAllocated + n) % wordSize ∧
      g'.totalFreed = g.totalFreed ∧ g'.userSize (ptr - headerSize) = n ∧ n ≤ g'.size (ptr - headerSize) := by
  rw [groupMalloc_eq h, alignUp_roundUp hn] at hrun
  split at hrun
  · obtain ⟨rfl, rfl⟩ : 0 = ptr ∧ g = g' := by simpa using hrun
    exact Or.inl ⟨rfl, rfl⟩
  · split at hrun
    · obtain ⟨rfl, rfl⟩ : 0 = ptr ∧ g = g' := by simpa using hrun
      exact Or.inl ⟨rfl, rfl⟩
    · rename_i cur hfind
      obtain ⟨rfl, rfl⟩ : cur + headerSize = ptr ∧ _ = g' := by simpa using hrun
      have hout := groupTake_handedOut h hfind
      obtain ⟨halloc, hfreed⟩ := groupTake_totals g cur (roundUp n) n
      rw [Nat.add_sub_cancel]
      exact Or.inr ⟨by simp [headerSize], halloc, hfreed, hout.user, hout.large⟩

/-- What holds of a client of the group manager. -/
structure GroupClient (start : ℕ) (s : ManagerRun Group) (L F : List ℕ) : Prop where
  inv : GroupInv s.heap (s.live.map Prod.fst) start L F
  home : s.heap.memoryStart = start
  counted : Counted ⟨s.heap, s.live.map Prod.fst⟩ L
  user : ∀ ptr n, (ptr, n) ∈ s.live → s.heap.userSize (ptr - headerSize) = n ∧ n ≤ s.heap.size (ptr - headerSize)
  asked : s.heap.totalAllocated = s.asked
  balance : s.asked = owed s + s.heap.totalFreed
  small : s.asked < wordSize

/-- What the client holds is a block in the region, and its free takes it back. -/
theorem GroupClient.free (h : GroupClient start s L F) (hlive : (ptr, n) ∈ s.live) :
    n ≠ 0 ∧ groupFree s.heap ptr = (n, groupGiveBack s.heap (ptr - headerSize)) := by
  obtain ⟨b, hb, hf, rfl⟩ := (h.inv.live ptr).mp (List.mem_map_of_mem hlive)
  obtain ⟨huse, hroom⟩ := h.user _ n hlive
  rw [Nat.add_sub_cancel] at huse hroom ⊢
  have hn : s.heap.userSize b ≠ 0 := h.inv.user b hb hf
  obtain ⟨hlow, hhigh⟩ := h.inv.shape.tiles.bounds hb
  have hhome := h.home
  refine ⟨huse ▸ hn, ?_⟩
  rw [groupFree_eq hf hn (by omega) (by omega), huse]

/-- So the reports mean what they should. -/
theorem GroupClient.means (h : GroupClient start s L F) : InfoMeans groupManager s := by
  refine ⟨?_, fun ptr n hlive => ⟨_, congrArg some (h.free hlive).2⟩⟩
  obtain ⟨info, hrun, -⟩ := groupGetInfo_spec h.inv
  obtain ⟨halloc, hfreed, hcur, hleak⟩ := groupGetInfo_counters hrun
  have hbalance : info.totalAllocated = owed s + info.totalFreed := by
    rw [halloc, hfreed, h.asked]
    exact h.balance
  refine ⟨info, hrun, ?_, hbalance, ?_⟩
  · rw [hcur, h.counted.count, List.length_map]
  · rw [hleak, bne_eq_false_iff_eq, ← halloc, ← hfreed, hbalance]
    constructor
    · intro hsame
      rw [List.eq_nil_iff_forall_not_mem]
      rintro ⟨ptr, n⟩ hlive
      have hle := owed_erase hlive
      have hn := (h.free hlive).1
      omega
    · intro hnil
      simp [owed, hnil]

/-- The call does not merge across the ends of the region. -/
def GroupStays (s : ManagerRun Group) : MemoryCall → Prop
  | .malloc _ => True
  | .free ptr => ¬MergesAcrossEnds s.heap ptr

theorem groupMalloc_home (h : GroupInv g live lo L F) (hrun : groupMalloc g n = some (ptr, g')) :
    g'.memoryStart = g.memoryStart := by
  rcases groupMalloc_spec h n with hfail | ⟨cur, g₁, L', F', hok, -, -, hhome, -⟩
  · obtain ⟨-, rfl⟩ : 0 = ptr ∧ g = g' := by simpa using hfail.symm.trans hrun
    rfl
  · obtain ⟨-, rfl⟩ : cur + headerSize = ptr ∧ g₁ = g' := by simpa using hok.symm.trans hrun
    exact hhome

theorem GroupClient.malloc (h : GroupClient start s L F) (h8 : 8 ∣ size) (hw : size < wordSize)
    (hst : (groupManager.client start size).step s (.malloc n) t) : ∃ L' F', GroupClient start t L' F' := by
  obtain ⟨hn, hsmall, ptr, g, hrun, rfl⟩ := hst
  have hround : n + 8 ≤ wordSize := by
    simp only [wordSize] at *
    omega
  have hstep : (groupSystem start size).step ⟨s.heap, s.live.map Prod.fst⟩ (.malloc n)
      ⟨g, if ptr = 0 then s.live.map Prod.fst else ptr :: s.live.map Prod.fst⟩ :=
    ⟨hn.trans_lt hw, ptr, g, hrun, rfl⟩
  obtain ⟨lo, L', F', hinv, hlo, -, hcount, hsame⟩ := groupStep_spec h.inv hstep
  obtain rfl := hlo trivial
  have hcount := hcount h.counted
  have hhome := (groupMalloc_home h.inv hrun).trans h.home
  have hkeep (p m : ℕ) (hp : (p, m) ∈ s.live) :
      g.userSize (p - headerSize) = m ∧ m ≤ g.size (p - headerSize) := by
    obtain ⟨-, hsize, huse, -⟩ := hsame p (List.mem_map_of_mem hp) (by simp)
    have hold := h.user p m hp
    exact ⟨huse.trans hold.1, hold.2.trans_eq hsize.symm⟩
  rcases groupMalloc_books h.inv hround hrun with ⟨rfl, rfl⟩ | ⟨hptr, halloc, hfreed, huse, hroom⟩
  · rw [if_pos rfl] at hinv hcount ⊢
    exact ⟨L', F', hinv, hhome, hcount, h.user, h.asked, h.balance, h.small⟩
  · rw [if_neg hptr] at hinv hcount hsmall ⊢
    refine ⟨L', F', hinv, hhome, hcount, fun p m hp => ?_, ?_, ?_, hsmall⟩
    · rcases List.mem_cons.mp hp with hnew | hp
      · obtain ⟨rfl, rfl⟩ := Prod.mk.inj hnew
        exact ⟨huse, hroom⟩
      · exact hkeep p m hp
    · show g.totalAllocated = s.asked + n
      rw [halloc, h.asked, Nat.mod_eq_of_lt hsmall]
    · have hbalance := h.balance
      show s.asked + n = (((ptr, n) :: s.live).map Prod.snd).sum + g.totalFreed
      rw [hfreed, List.map_cons, List.sum_cons]
      unfold owed at hbalance
      omega

theorem GroupClient.release (h : GroupClient start s L F) (hok : GroupStays s (.free ptr))
    (hst : (groupManager.client start size).step s (.free ptr) t) : ∃ L' F', GroupClient start t L' F' := by
  obtain ⟨n, freed, g, hlive, hrun, rfl⟩ := hst
  obtain ⟨hn, hfree⟩ := h.free hlive
  obtain ⟨rfl, rfl⟩ : n = freed ∧ _ = g := by simpa using hfree.symm.trans (Option.some.inj hrun)
  have hptr : ptr ∈ s.live.map Prod.fst := List.mem_map_of_mem hlive
  have hstep : (groupSystem start size).step ⟨s.heap, s.live.map Prod.fst⟩ (.free ptr)
      ⟨groupGiveBack s.heap (ptr - headerSize), (s.live.map Prod.fst).erase ptr⟩ :=
    ⟨hptr, n, _, hfree, by rw [if_neg hn]⟩
  obtain ⟨lo, L', F', hinv, hlo, -, hcount, hsame⟩ := groupStep_spec h.inv hstep
  obtain rfl := hlo hok
  have hcount := hcount h.counted
  rw [← map_fst_erase h.inv.nodup hlive] at hinv hcount
  obtain ⟨halloc, hfreed⟩ := groupGiveBack_totals s.heap (ptr - headerSize)
  have howed := owed_erase hlive
  have hbalance := h.balance
  have hsmall := h.small
  refine ⟨L', F', hinv, ?_, hcount, fun p m hp => ?_, halloc.trans h.asked, ?_, hsmall⟩
  · rcases groupFree_spec h.inv hptr with hfail | ⟨m, g', lo', L₁, F₁, hrun', -, -, -, -, hhome, -⟩
    · exact absurd (Prod.mk.inj (hfree.symm.trans hfail)).1 hn
    · rw [(Prod.mk.inj (hfree.symm.trans hrun')).2]
      exact hhome.trans h.home
  · have hp' : (p, m) ∈ s.live := List.mem_of_mem_erase hp
    have hne : p ≠ ptr := by
      rintro rfl
      have hmem : p ∈ (s.live.erase (p, n)).map Prod.fst := List.mem_map_of_mem hp
      rw [map_fst_erase h.inv.nodup hlive] at hmem
      exact (h.inv.nodup.mem_erase_iff.mp hmem).1 rfl
    obtain ⟨-, hsize, huse, -⟩ := hsame p (List.mem_map_of_mem hp') (by simpa using hne.symm)
    have hold := h.user p m hp'
    exact ⟨huse.trans hold.1, hold.2.trans_eq hsize.symm⟩
  · show s.asked = ((s.live.erase (ptr, n)).map Prod.snd).sum + (groupGiveBack s.heap (ptr - headerSize)).totalFreed
    rw [hfreed, (h.user ptr n hlive).1, Nat.mod_eq_of_lt (by omega)]
    omega

theorem groupManager_client (h0 : 0 < start) (h8 : 8 ∣ size) (hsz : headerSize < size) (hw : size < wordSize)
    (h : (groupManager.client start size).Reach GroupStays s) : ∃ L F, GroupClient start s L F := by
  apply h.invariant (I := fun s => ∃ L F, GroupClient start s L F)
  · rintro _ ⟨g, rfl⟩
    refine ⟨[start], [start], groupInit_inv g h0 h8 hsz hw, rfl, ⟨?_, ?_, ?_⟩, ?_, ?_, ?_, ?_⟩
    all_goals simp [Coalesced, groupInit, groupManager, opened, owed, wordSize]
  · rintro s call t ⟨L, F, hc⟩ hok hst
    cases call with
    | malloc n => exact hc.malloc h8 hw hst
    | free ptr => exact hc.release hok hst

end BareKernel.Memory

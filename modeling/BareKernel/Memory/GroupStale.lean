import BareKernel.Memory.GroupRuns

/-! Headers of blocks that have been taken back. Such a header is that of a free block, or
it lies where a merge left it, inside of a larger block. No free gives it a user size again,
and no block handed out reaches it, so a second free of the pointer is refused. -/

namespace BareKernel.Memory

open Function (update)
open Links

variable {g : Group} {s t : GroupRun} {call : GroupCall} {start size p q b n : ℕ}

/-- The calls of a stretch without mallocs. -/
def FreesOnly (_ : GroupRun) (call : GroupCall) : Prop := ∃ ptr, call = .free ptr

@[simp] theorem mergeNext_userSize (g : Group) (b : ℕ) : (mergeNext g b).userSize = g.userSize := by
  unfold mergeNext
  dsimp only
  split_ifs
  · simp
  · rfl

@[simp] theorem mergePrev_userSize (g : Group) (b : ℕ) : (mergePrev g b).2.userSize = g.userSize := by
  unfold mergePrev
  dsimp only
  split_ifs
  · simp
  · rfl

theorem groupGiveBack_userSize (g : Group) (b : ℕ) :
    ∃ c, (groupGiveBack g b).userSize = update (update g.userSize b 0) c 0 := by
  unfold groupGiveBack mergePrevInsert
  dsimp only
  rw [insertIntoFreeList_userSize, mergePrev_userSize, mergeNext_userSize]
  exact ⟨_, rfl⟩

/-- A free refuses the pointer, or it clears the user sizes of the block and of the block that
this one is merged into. -/
theorem groupFree_userSize (g : Group) (ptr : ℕ) :
    groupFree g ptr = (0, g) ∨
      ∃ c, (groupFree g ptr).2.userSize = update (update g.userSize (ptr - headerSize) 0) c 0 := by
  by_cases hrange : ptr < g.memoryStart + headerSize ∨ g.memoryStart + g.totalSize ≤ ptr
  · exact Or.inl (by simp [groupFree, hrange])
  by_cases hblock : g.isFree (ptr - headerSize) = true ∨ g.userSize (ptr - headerSize) = 0
  · exact Or.inl (by simp [groupFree, hblock])
  · simp only [not_or, not_lt, not_le, Bool.not_eq_true] at hrange hblock
    obtain ⟨b, rfl⟩ : ∃ b, ptr = b + headerSize := ⟨ptr - headerSize, by omega⟩
    rw [Nat.add_sub_cancel] at hblock ⊢
    rw [groupFree_eq hblock.1 hblock.2 hrange.1 hrange.2]
    exact Or.inr (groupGiveBack_userSize g b)

theorem update_zero {f : ℕ → ℕ} (h : f b = 0) (c : ℕ) : update f c 0 b = 0 := by
  by_cases hbc : b = c
  · rw [hbc, Function.update_self]
  · rw [Function.update_of_ne hbc, h]

/-- A free gives no header a user size. -/
theorem groupFree_stale (h : g.userSize b = 0) (ptr : ℕ) : (groupFree g ptr).2.userSize b = 0 := by
  rcases groupFree_userSize g ptr with hrun | ⟨c, hrun⟩
  · rw [hrun]
    exact h
  · rw [hrun]
    exact update_zero (update_zero h _) c

/-- A pointer that has been taken back has a stale header. -/
theorem groupFree_makes_stale (hfree : groupFree s.heap p = (n, g)) (hn : n ≠ 0) :
    g.userSize (p - headerSize) = 0 := by
  rcases groupFree_userSize s.heap p with hrun | ⟨c, hrun⟩
  · exact absurd (congrArg Prod.fst (hfree.symm.trans hrun)) hn
  · rw [hfree] at hrun
    rw [show g.userSize = _ from hrun]
    exact update_zero (Function.update_self ..) c

theorem groupFree_refuses (h : g.userSize (p - headerSize) = 0) : groupFree g p = (0, g) := by
  simp [groupFree, h]

theorem leads_stale (h : s.heap.userSize b = 0) (hrun : (groupSystem start size).Leads FreesOnly s t) :
    t.heap.userSize b = 0 := by
  induction hrun with
  | refl => exact h
  | step _ hok hst ih =>
    obtain ⟨ptr, rfl⟩ := hok
    obtain ⟨-, freed, g, hfree, rfl⟩ := hst
    have hkept := groupFree_stale ih ptr
    rw [hfree] at hkept
    exact hkept

/-- From any state: when `group_free(p)` has taken the block back, further frees of live pointers
leave its header stale, so that another `group_free(p)` returns 0 and changes nothing. -/
theorem group_double_free (hfree : groupFree s.heap p = (n, g)) (hn : n ≠ 0)
    (hrun : (groupSystem start size).Leads FreesOnly ⟨g, s.live.erase p⟩ t) :
    groupFree t.heap p = (0, t.heap) := by
  have hstale : g.userSize (p - headerSize) = 0 := groupFree_makes_stale hfree hn
  have hstill : t.heap.userSize (p - headerSize) = 0 := leads_stale hstale hrun
  exact groupFree_refuses hstill

/-- The lowest block is merged into the last one, and that one into the block between them. -/
theorem group_double_free_twoBlocks :
    groupFree (groupFree (groupFree twoBlocks 64).2 128).2 64 =
      (0, (groupFree (groupFree twoBlocks 64).2 128).2) := by
  have hfree : groupFree twoBlocks 64 = (8, (groupFree twoBlocks 64).2) := Prod.ext (by decide) rfl
  have hrun : (groupSystem 8 512).Leads FreesOnly ⟨(groupFree twoBlocks 64).2, [128, 64].erase 64⟩
      ⟨(groupFree (groupFree twoBlocks 64).2 128).2, []⟩ :=
    .step .refl ⟨128, rfl⟩ ⟨by decide, 8, _, Prod.ext (by decide) rfl, rfl⟩
  exact group_double_free (s := ⟨twoBlocks, [128, 64]⟩) hfree (by decide) hrun

/-! ### Stale headers and live blocks -/

/-- A free leaves no block in a client's hands that was not there, and changes none. -/
theorem groupStep_keeps {lo : ℕ} {L F : List ℕ} (h : GroupInv s.heap s.live lo L F)
    (hok : FreesOnly s call) (hst : (groupSystem start size).step s call t) (hq : q ∈ t.live) :
    q ∈ s.live ∧ SameBlock s.heap t.heap q := by
  obtain ⟨ptr, rfl⟩ := hok
  obtain ⟨hptr, freed, g, hfree, rfl⟩ := hst
  rcases groupFree_spec h hptr with hfail | ⟨n, g', lo', L', F', hrun, hn, hinv, hlo, hsame, hrest⟩
  · obtain ⟨rfl, rfl⟩ : freed = 0 ∧ g = s.heap := by simpa [hfree] using hfail
    exact ⟨hq, rfl, rfl, rfl⟩
  · obtain ⟨rfl, rfl⟩ : freed = n ∧ g = g' := by simpa [hfree] using hrun
    simp only [hn, if_false] at hq
    have hold : q ∈ s.live := List.mem_of_mem_erase hq
    have hne : q ≠ ptr := by
      rintro rfl
      exact h.nodup.not_mem_erase hq
    exact ⟨hold, hsame q hold hne⟩

theorem leads_keeps (h : ∃ lo L F, GroupInv s.heap s.live lo L F)
    (hrun : (groupSystem start size).Leads FreesOnly s t) (hq : q ∈ t.live) :
    q ∈ s.live ∧ SameBlock s.heap t.heap q := by
  have hall : (∃ lo L F, GroupInv t.heap t.live lo L F) ∧
      ∀ q ∈ t.live, q ∈ s.live ∧ SameBlock s.heap t.heap q := by
    clear hq
    induction hrun with
    | refl => exact ⟨h, fun q hq => ⟨hq, rfl, rfl, rfl⟩⟩
    | step _ hok hst ih =>
      obtain ⟨⟨lo, L, F, hinv⟩, hkept⟩ := ih
      obtain ⟨lo', L', F', hinv', -⟩ := groupStep_spec hinv hst
      refine ⟨⟨lo', L', F', hinv'⟩, fun q hq => ?_⟩
      obtain ⟨hold, hsame⟩ := groupStep_keeps hinv hok hst hq
      exact ⟨(hkept q hold).1, (hkept q hold).2.trans hsame⟩
  exact hall.2 q hq

/-- Clients that store into their own blocks do not reach the stale header. -/
theorem group_stale_apart (h8 : 8 ∣ size) (hsz : headerSize < size) (hw : size < wordSize)
    (h : (groupSystem start size).Reach (fun _ _ => True) s) (hp : p ∈ s.live)
    (hfree : groupFree s.heap p = (n, g)) (hn : n ≠ 0)
    (hrun : (groupSystem start size).Leads FreesOnly ⟨g, s.live.erase p⟩ t) (hq : q ∈ t.live) :
    Disjoint (payload t.heap q) (header (p - headerSize)) := by
  have hstep : (groupSystem start size).step s (.free p) ⟨g, s.live.erase p⟩ :=
    ⟨hp, n, g, hfree, by rw [if_neg hn]⟩
  have hleads : (groupSystem start size).Leads FreesOnly s t := .trans (.step .refl ⟨p, rfl⟩ hstep) hrun
  obtain ⟨⟨L, F, hlists, -, -, hapart⟩, -, -⟩ := group_blocks_disjoint h8 hsz hw h
  obtain ⟨b, hb, -, rfl⟩ := (hlists.live p).mp hp
  have hinv : ∃ lo L F, GroupInv s.heap s.live lo L F := by
    rcases Nat.eq_zero_or_pos start with rfl | h0
    · obtain ⟨g, rfl⟩ := groupRun_null h
      simp at hp
    · exact groupRun_inv h0 h8 hsz hw h
  obtain ⟨hold, hsame⟩ := leads_keeps hinv hleads hq
  have hpay : payload t.heap q = payload s.heap q := by
    rw [payload, payload, hsame.1]
  rw [hpay, Nat.add_sub_cancel]
  exact (hapart q hold).2 b hb

end BareKernel.Memory

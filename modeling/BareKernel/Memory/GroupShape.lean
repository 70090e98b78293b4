import BareKernel.Links.Ring
import BareKernel.Memory.Group
import Mathlib.Data.List.Sort

/-! What the block list and the free list of the group allocator look like. The
block list is a ring through `next` and `prev` whose blocks, read from the lowest
header, lie side by side in memory; the free list is a ring through `freeNext`
and `freePrev` of the blocks marked free. Each operation of the allocator is
described by what it does to these two lists. -/

namespace BareKernel.Memory

open Function (update)
open Links

/-- The blocks of `L` lie side by side from `lo` to `hi`. -/
def Tiles (size : ℕ → ℕ) : ℕ → List ℕ → ℕ → Prop
  | lo, [], hi => lo = hi
  | lo, b :: L, hi => lo = b ∧ Tiles size (b + headerSize + size b) L hi

section Tiles

variable {size size' : ℕ → ℕ} {lo hi a b n : ℕ} {A B L : List ℕ}

theorem tiles_append : Tiles size lo (A ++ B) hi ↔ ∃ mid, Tiles size lo A mid ∧ Tiles size mid B hi := by
  induction A generalizing lo with
  | nil => simp [Tiles]
  | cons a A ih =>
    simp only [List.cons_append, Tiles, ih]
    constructor
    · rintro ⟨rfl, mid, hA, hB⟩
      exact ⟨mid, ⟨rfl, hA⟩, hB⟩
    · rintro ⟨mid, ⟨rfl, hA⟩, hB⟩
      exact ⟨rfl, mid, hA, hB⟩

theorem Tiles.congr (h : Tiles size lo L hi) (hs : ∀ b ∈ L, size' b = size b) :
    Tiles size' lo L hi := by
  induction L generalizing lo with
  | nil => exact h
  | cons b L ih =>
    refine ⟨h.1, ?_⟩
    rw [hs b (by simp)]
    exact ih h.2 fun c hc => hs c (by simp [hc])

theorem Tiles.le (h : Tiles size lo L hi) : lo ≤ hi := by
  induction L generalizing lo with
  | nil => exact h.le
  | cons b L ih =>
    have := ih h.2
    have := h.1
    omega

theorem Tiles.bounds (h : Tiles size lo L hi) (hb : b ∈ L) :
    lo ≤ b ∧ b + headerSize + size b ≤ hi := by
  obtain ⟨A, B, rfl⟩ := List.append_of_mem hb
  obtain ⟨mid, hA, rfl, hB⟩ := tiles_append.mp h
  exact ⟨hA.le, hB.le⟩

/-- Blocks further up the list lie beyond the end of the ones before. -/
theorem Tiles.pairwise (h : Tiles size lo L hi) :
    L.Pairwise fun x y => x + headerSize + size x ≤ y := by
  induction L generalizing lo with
  | nil => exact .nil
  | cons b L ih => exact .cons (fun y hy => (h.2.bounds hy).1) (ih h.2)

theorem Tiles.nodup (h : Tiles size lo L hi) : L.Nodup := by
  refine h.pairwise.imp fun {x y} hxy => ?_
  simp only [headerSize] at hxy
  omega

/-- Distinct blocks do not meet. -/
theorem Tiles.disjoint (h : Tiles size lo L hi) (ha : a ∈ L) (hb : b ∈ L) (hab : a ≠ b) :
    a + headerSize + size a ≤ b ∨ b + headerSize + size b ≤ a := by
  obtain ⟨A, B, rfl⟩ := List.append_of_mem ha
  obtain ⟨mid, hA, rfl, hB⟩ := tiles_append.mp h
  rcases List.mem_append.mp hb with hb | hb
  · exact Or.inr (hA.bounds hb).2
  · rcases List.mem_cons.mp hb with rfl | hb
    · exact absurd rfl hab
    · exact Or.inl (hB.bounds hb).1

theorem Tiles.sum_eq (h : Tiles size lo L hi) :
    lo + (L.map fun b => size b + headerSize).sum = hi := by
  induction L generalizing lo with
  | nil => simpa [Tiles] using h
  | cons b L ih =>
    have hl := ih h.2
    have hb := h.1
    simp only [List.map_cons, List.sum_cons]
    omega

theorem Tiles.length_le (h : Tiles size lo L hi) : lo + L.length ≤ hi := by
  induction L generalizing lo with
  | nil => exact h.le
  | cons b L ih =>
    have hl := ih h.2
    have hb := h.1
    simp only [List.length_cons, headerSize] at hl ⊢
    omega

end Tiles

/-- The block list, from its lowest header `lo` on. -/
structure Shape (g : Group) (lo : ℕ) (L : List ℕ) : Prop where
  ring : Ring (Both g.next g.prev) L
  tiles : Tiles g.size lo L (lo + g.totalSize)
  ne_nil : L ≠ []
  aligned : ∀ b ∈ L, 8 ∣ g.size b
  pos : 0 < lo
  small : g.totalSize < wordSize

/-- The free list, from its head on. -/
structure FreeList (g : Group) (L F : List ℕ) : Prop where
  ring : Ring (Both g.freeNext g.freePrev) F
  head : F.head?.getD 0 = g.freeList
  nodup : F.Nodup
  mem : ∀ b, b ∈ F ↔ b ∈ L ∧ g.isFree b = true

/-- No two distinct neighbours of the block list are both free. -/
def Coalesced (g : Group) (L : List ℕ) : Prop :=
  ∀ b ∈ L, g.isFree b = true → g.isFree (g.next b) = true → g.next b = b

variable {g g' : Group} {lo a b n : ℕ} {A B L F : List ℕ}

theorem Shape.head (h : Shape g lo (b :: B)) : lo = b := h.tiles.1

theorem Shape.pos_of_mem (h : Shape g lo L) (hb : b ∈ L) : 0 < b :=
  h.pos.trans_le (h.tiles.bounds hb).1

theorem Shape.size_lt (h : Shape g lo L) (hb : b ∈ L) : headerSize + g.size b ≤ g.totalSize := by
  have := h.tiles.bounds hb
  omega

/-- Two blocks fit into the region together. -/
theorem Shape.size_add_lt (h : Shape g lo L) (ha : a ∈ L) (hb : b ∈ L) (hab : a ≠ b) :
    g.size a + (headerSize + g.size b) < wordSize := by
  have hA := h.tiles.bounds ha
  have hB := h.tiles.bounds hb
  have hs := h.small
  rcases h.tiles.disjoint ha hb hab with hd | hd <;> omega

theorem Shape.congr (h : Shape g lo L) (hs : g'.size = g.size) (hn : g'.next = g.next)
    (hp : g'.prev = g.prev) (ht : g'.totalSize = g.totalSize) : Shape g' lo L :=
  ⟨by rw [hn, hp]; exact h.ring, by rw [hs, ht]; exact h.tiles, h.ne_nil, by rw [hs]; exact h.aligned,
    h.pos, by rw [ht]; exact h.small⟩

/-- The successor of a block is the one behind it, or the lowest one. -/
theorem Shape.next_cases (h : Shape g lo L) (ha : a ∈ L) :
    (∃ A B, L = A ++ a :: g.next a :: B) ∨ (g.next a = lo ∧ ∃ A, L = A ++ [a]) := by
  obtain ⟨A, B, rfl⟩ := List.append_of_mem ha
  rcases B with _ | ⟨c, B⟩
  · refine Or.inr ⟨?_, A, rfl⟩
    rcases A with _ | ⟨d, A⟩
    · exact (ring_singleton.mp h.ring).1.trans h.head.symm
    · have hl := h.ring.2 a (List.getLast?_concat ..) d (by simp)
      exact hl.1.trans h.head.symm
  · refine Or.inl ⟨A, B, ?_⟩
    have hc := h.ring.1
    rw [List.isChain_append_cons_cons] at hc
    rw [hc.2.1.1]

/-! ### Splitting a block -/

theorem Shape.split {cur req nb : ℕ} (h : Shape g lo (A ++ cur :: B)) (h8 : 8 ∣ req)
    (hsz : req + headerSize ≤ g.size cur) (hnb : nb = cur + headerSize + req)
    (hs : g'.size = update (update g.size nb (g.size cur - req - headerSize)) cur req)
    (hn : g'.next = update (update g.next nb (g.next cur)) cur nb)
    (hp : g'.prev = update (update g.prev nb cur) (g.next cur) nb)
    (ht : g'.totalSize = g.totalSize) : Shape g' lo (A ++ cur :: nb :: B) := by
  have hcur : cur ∈ A ++ cur :: B := by simp
  have hnot : nb ∉ A ++ cur :: B := by
    intro hm
    have hne : cur ≠ nb := by simp only [hnb, headerSize]; omega
    rcases h.tiles.disjoint hcur hm hne with hd | hd <;> simp only [headerSize] at * <;> omega
  have hne : nb ≠ cur := by rintro rfl; exact hnot hcur
  have hnext := (h.ring.fwd_mem hcur)
  have hnn : g.next cur ≠ nb := fun he => hnot (he ▸ hnext.1)
  have hnd := h.tiles.nodup
  refine ⟨?_, ?_, by simp, ?_, h.pos, by rw [ht]; exact h.small⟩
  · refine h.ring.link hnd ?_ ?_ ?_
    · exact ⟨by simp [hn], by simp [hp, Ne.symm hnn]⟩
    · rintro y ⟨rfl, -⟩
      exact ⟨by simp [hn, hne], by simp [hp]⟩
    · rintro x hx y hy hxc ⟨rfl, hb⟩
      have hxn : x ≠ nb := fun he => hnot (he ▸ hx)
      have hyn : g.next x ≠ nb := fun he => hnot (he ▸ hy)
      have hyc : g.next x ≠ g.next cur := fun he => hxc (hb.symm.trans (by rw [he, hnext.2]))
      exact ⟨by simp [hn, hxc, hxn], by simp [hp, hyc, hyn, hb]⟩
  · obtain ⟨mid, hA, rfl, hB⟩ := tiles_append.mp h.tiles
    have hAB : ∀ b, b ∈ A ∨ b ∈ B → g'.size b = g.size b := by
      intro b hb
      have hbc : b ≠ mid := by
        rintro rfl
        simp [List.nodup_append] at hnd
        rcases hb with hb | hb
        · exact absurd rfl (hnd.2.2 _ hb).1
        · exact hnd.2.1.1 hb
      have hbn : b ≠ nb := by rintro rfl; exact hnot (by simp; tauto)
      simp [hs, hbc, hbn]
    rw [ht]
    refine tiles_append.mpr ⟨mid, hA.congr fun b hb => hAB b (Or.inl hb), rfl, ?_, ?_⟩
    · simp [hs, hnb]
    · have hend : nb + headerSize + g'.size nb = mid + headerSize + g.size mid := by
        simp [hs, hne]; omega
      rw [hend]
      exact hB.congr fun b hb => hAB b (Or.inr hb)
  · intro b hb
    simp only [hs]
    by_cases hbc : b = cur
    · simpa [hbc] using h8
    · by_cases hbn : b = nb
      · have hc := h.aligned cur hcur
        rw [Function.update_of_ne hbc, hbn, Function.update_self]
        simp only [headerSize] at hsz ⊢
        omega
      · simpa [hbc, hbn] using h.aligned b (by simp at hb ⊢; tauto)

/-! ### Merging a block with its successor -/

/-- The lowest header once the successor `n` has been merged into a block. -/
def loAfter (g : Group) (lo n : ℕ) : ℕ := if n = lo then n + headerSize + g.size n else lo

theorem Shape.absorb (h : Shape g lo L) (ha : a ∈ L) (han : g.next a = n) (hna : n ≠ a)
    (hs : g'.size = update g.size a (g.size a + (headerSize + g.size n)))
    (hn : g'.next = update g.next a (g.next n))
    (hp : g'.prev = update g.prev (g.next n) a)
    (ht : g'.totalSize = g.totalSize) : Shape g' (loAfter g lo n) (L.erase n) := by
  have hnd := h.tiles.nodup
  have hnext := h.ring.fwd_mem ha
  rw [han] at hnext
  have hnn := h.ring.fwd_mem hnext.1
  have hsize : ∀ b, b ≠ a → g'.size b = g.size b := fun b hb => by simp [hs, hb]
  refine ⟨?_, ?_, ?_, ?_, ?_, by rw [ht]; exact h.small⟩
  · obtain ⟨A, B, rfl⟩ := List.append_of_mem hnext.1
    have hnot := not_mem_of_nodup hnd
    rw [erase_of_nodup hnd]
    refine h.ring.unlink hnot ?_ ?_
    · rintro x - y - ⟨-, hx⟩ ⟨rfl, -⟩
      obtain rfl : a = x := hnext.2.symm.trans hx
      exact ⟨by simp [hn], by simp [hp]⟩
    · rintro x - y - hx hy ⟨rfl, hb⟩
      have hxa : x ≠ a := by rintro rfl; exact hy han
      have hyn : g.next x ≠ g.next n := fun he => hx (hb.symm.trans (by rw [he, hnn.2]))
      exact ⟨by simp [hn, hxa], by simp [hp, hyn, hb]⟩
  · rcases h.next_cases ha with ⟨A, B, rfl⟩ | ⟨hlo, A, rfl⟩
    · -- `n` lies behind `a`
      rw [han] at hnd ⊢
      have htl := h.tiles
      rw [han] at htl
      obtain ⟨mid, hA, rfl, hn', hB⟩ := tiles_append.mp htl
      have hlo : n ≠ lo := by
        have := hA.le
        simp only [headerSize] at hn'
        omega
      rw [List.append_cons, erase_of_nodup (by simpa using hnd), ht]
      have hAB : ∀ b, b ∈ A ∨ b ∈ B → g'.size b = g.size b := by
        intro b hb
        refine hsize b ?_
        rintro rfl
        simp [List.nodup_append] at hnd
        grind
      simp only [loAfter, hlo, if_false, List.append_assoc, List.singleton_append]
      refine tiles_append.mpr ⟨mid, hA.congr fun b hb => hAB b (Or.inl hb), rfl, ?_⟩
      have hend : mid + headerSize + g'.size mid = n + headerSize + g.size n := by
        simp only [hs, Function.update_self]
        omega
      rw [hend]
      exact hB.congr fun b hb => hAB b (Or.inr hb)
    · -- `a` is the last block and `n` the lowest
      rw [han] at hlo
      rcases A with _ | ⟨c, A⟩
      · have := (List.mem_singleton.mp (by simpa using hnext.1) : n = a)
        exact absurd this hna
      · have hc : n = c := hlo.trans h.head
        have htl := h.tiles
        rw [List.cons_append] at htl hnd ⊢
        obtain ⟨-, htl⟩ := htl
        obtain ⟨mid, hA, rfl, hlast⟩ := tiles_append.mp htl
        rw [← hc] at hA ⊢
        rw [List.erase_cons_head, ht]
        simp only [loAfter, hlo, if_true]
        rw [hlo] at hA
        refine tiles_append.mpr ⟨mid, hA.congr fun b hb => hsize b ?_, rfl, ?_⟩
        · rintro rfl
          simp [List.nodup_append] at hnd
          grind
        · simp only [Tiles, hs, Function.update_self, hlo] at hlast ⊢
          omega
  · intro he
    have hane : a ∈ L.erase n := (List.mem_erase_of_ne (Ne.symm hna)).mpr ha
    simp [he] at hane
  · intro b hb
    have hbL := List.mem_of_mem_erase hb
    by_cases hba : b = a
    · have h1 := h.aligned a ha
      have h2 := h.aligned n hnext.1
      subst hba
      simp only [hs, Function.update_self, headerSize]
      omega
    · rw [hsize b hba]
      exact h.aligned b hbL
  · have := h.pos
    unfold loAfter
    split <;> omega

/-! ### The free list -/

section FreeListFields

variable (g : Group) (b : ℕ)

@[simp] theorem removeFromFreeList_size : (removeFromFreeList g b).size = g.size := by
  unfold removeFromFreeList; dsimp only; split_ifs <;> rfl

@[simp] theorem removeFromFreeList_userSize : (removeFromFreeList g b).userSize = g.userSize := by
  unfold removeFromFreeList; dsimp only; split_ifs <;> rfl

@[simp] theorem removeFromFreeList_next : (removeFromFreeList g b).next = g.next := by
  unfold removeFromFreeList; dsimp only; split_ifs <;> rfl

@[simp] theorem removeFromFreeList_prev : (removeFromFreeList g b).prev = g.prev := by
  unfold removeFromFreeList; dsimp only; split_ifs <;> rfl

@[simp] theorem removeFromFreeList_totalSize : (removeFromFreeList g b).totalSize = g.totalSize := by
  unfold removeFromFreeList; dsimp only; split_ifs <;> rfl

@[simp] theorem removeFromFreeList_memoryStart :
    (removeFromFreeList g b).memoryStart = g.memoryStart := by
  unfold removeFromFreeList; dsimp only; split_ifs <;> rfl

@[simp] theorem removeFromFreeList_currentBlocks :
    (removeFromFreeList g b).currentBlocks = g.currentBlocks := by
  unfold removeFromFreeList; dsimp only; split_ifs <;> rfl

theorem removeFromFreeList_isFree (hb : b ≠ 0) :
    (removeFromFreeList g b).isFree = update g.isFree b false := by
  unfold removeFromFreeList; dsimp only
  split_ifs with h
  · rcases h with h | h
    · exact absurd h hb
    · rw [← h, Function.update_eq_self]
  all_goals rfl

@[simp] theorem insertIntoFreeList_size : (insertIntoFreeList g b).size = g.size := by
  unfold insertIntoFreeList; dsimp only; split_ifs <;> rfl

@[simp] theorem insertIntoFreeList_userSize :
    (insertIntoFreeList g b).userSize = update g.userSize b 0 := by
  unfold insertIntoFreeList; dsimp only; split_ifs <;> rfl

@[simp] theorem insertIntoFreeList_isFree :
    (insertIntoFreeList g b).isFree = update g.isFree b true := by
  unfold insertIntoFreeList; dsimp only; split_ifs <;> rfl

@[simp] theorem insertIntoFreeList_next : (insertIntoFreeList g b).next = g.next := by
  unfold insertIntoFreeList; dsimp only; split_ifs <;> rfl

@[simp] theorem insertIntoFreeList_prev : (insertIntoFreeList g b).prev = g.prev := by
  unfold insertIntoFreeList; dsimp only; split_ifs <;> rfl

@[simp] theorem insertIntoFreeList_totalSize : (insertIntoFreeList g b).totalSize = g.totalSize := by
  unfold insertIntoFreeList; dsimp only; split_ifs <;> rfl

@[simp] theorem insertIntoFreeList_memoryStart :
    (insertIntoFreeList g b).memoryStart = g.memoryStart := by
  unfold insertIntoFreeList; dsimp only; split_ifs <;> rfl

@[simp] theorem insertIntoFreeList_currentBlocks :
    (insertIntoFreeList g b).currentBlocks = g.currentBlocks := by
  unfold insertIntoFreeList; dsimp only; split_ifs <;> rfl

end FreeListFields

theorem FreeList.congr (h : FreeList g L F) (hn : g'.freeNext = g.freeNext)
    (hp : g'.freePrev = g.freePrev) (hl : g'.freeList = g.freeList) {L' : List ℕ}
    (hm : ∀ b, b ∈ L' ∧ g'.isFree b = true ↔ b ∈ L ∧ g.isFree b = true) : FreeList g' L' F :=
  ⟨by rw [hn, hp]; exact h.ring, by rw [hl]; exact h.head, h.nodup, fun b => by rw [hm, h.mem]⟩

theorem FreeList.remove (h : FreeList g L F) (hb : b ∈ F) (hpos : b ≠ 0) :
    FreeList (removeFromFreeList g b) L (F.erase b) := by
  have hfree := (h.mem b).mp hb
  have hmem : ∀ x, x ∈ F.erase b ↔ x ∈ L ∧ (removeFromFreeList g b).isFree x = true := by
    intro x
    rw [h.nodup.mem_erase_iff, h.mem, removeFromFreeList_isFree g b hpos]
    by_cases hx : x = b <;> simp [hx]
  refine ⟨?_, ?_, h.nodup.erase b, hmem⟩
  · obtain ⟨A, B, rfl⟩ := List.append_of_mem hb
    have hnot := not_mem_of_nodup h.nodup
    rw [erase_of_nodup h.nodup]
    by_cases hone : g.freeNext b = b
    · have hs := h.ring.toFwd.eq_singleton h.nodup hb hone
      have hAB : A ++ B = [] := by
        rw [← erase_of_nodup h.nodup, hs]; simp
      rw [hAB]
      exact ring_nil
    · have hfn := h.ring.fwd_mem hb
      have hfp := h.ring.bwd_mem hb
      have hpb : g.freePrev b ≠ b := fun he => hone (by rw [he] at hfp; exact hfp.2)
      have hn : (removeFromFreeList g b).freeNext =
          update (update g.freeNext (g.freePrev b) (g.freeNext b)) b 0 := by
        simp [removeFromFreeList, hpos, hfree.2, hone]
        split <;> rfl
      have hp : (removeFromFreeList g b).freePrev =
          update (update g.freePrev (g.freeNext b) (g.freePrev b)) b 0 := by
        simp [removeFromFreeList, hpos, hfree.2, hone, Ne.symm hpb]
        split <;> rfl
      refine h.ring.unlink hnot ?_ ?_
      · rintro x - y - ⟨-, rfl⟩ ⟨rfl, -⟩
        exact ⟨by simp [hn, hpb], by simp [hp, hone]⟩
      · rintro x - y - hx hy ⟨rfl, hxy⟩
        have hxp : x ≠ g.freePrev b := fun he => hy (by rw [he]; exact hfp.2)
        have hyn : g.freeNext x ≠ g.freeNext b := fun he => hx (hxy.symm.trans (by rw [he, hfn.2]))
        exact ⟨by simp [hn, hx, hxp], by simp [hp, hy, hyn, hxy]⟩
  · rcases F with _ | ⟨f, T⟩
    · simp at hb
    have hhead : f = g.freeList := h.head
    by_cases hfb : f = b
    · subst hfb
      rw [List.erase_cons_head]
      rcases T with _ | ⟨c, T⟩
      · have hone := (ring_singleton.mp h.ring).1
        simp [removeFromFreeList, hpos, hfree.2, hone]
      · have hfc := (List.isChain_cons_cons.mp h.ring.1).1
        have hpc := h.ring.bwd_mem hb
        have hcf : c ≠ f := fun he => (List.nodup_cons.mp h.nodup).1 (by simp [he])
        have hpb : g.freePrev f ≠ f := fun he => hcf (by rw [he] at hpc; exact hfc.1.symm.trans hpc.2)
        simp [removeFromFreeList, hpos, hfree.2, hfc.1, hcf, ← hhead, Ne.symm hpb]
    · have hne : g.freeList ≠ b := hhead ▸ hfb
      have hone : g.freeNext b ≠ b := by
        intro he
        have hs := h.ring.toFwd.eq_singleton h.nodup hb he
        simp at hs
        exact hfb hs.1
      rw [List.erase_cons_tail (by simpa using hfb)]
      simp [removeFromFreeList, hpos, hfree.2, hone, hne, hhead]

theorem FreeList.insert (h : FreeList g L F) (hb : b ∉ F) (hF : 0 ∉ F) {L' : List ℕ}
    (hL : ∀ x, x ∈ L' ↔ x = b ∨ x ∈ L) : FreeList (insertIntoFreeList g b) L' (b :: F) := by
  refine ⟨?_, ?_, List.nodup_cons.mpr ⟨hb, h.nodup⟩, fun x => ?_⟩
  · rcases F.eq_nil_or_concat with rfl | ⟨A, t, rfl⟩
    · have hz : g.freeList = 0 := h.head.symm
      rw [ring_singleton]
      simp [insertIntoFreeList, hz, Both]
    · rw [List.concat_eq_append] at *
      have hmt : t ∈ A ++ [t] := by simp
      have hft := h.ring.fwd_mem hmt
      -- the head of the list is what its last block points at
      have hhead : g.freeNext t = g.freeList := by
        obtain ⟨f, hf⟩ : ∃ f, (A ++ [t]).head? = some f := by
          rw [← Option.isSome_iff_exists]; simp
        have hl := h.ring.2 t (by simp) f hf
        have hh := h.head
        rw [hf] at hh
        exact hl.1.trans hh
      have hne : g.freeList ≠ 0 := fun he => hF (by rw [← he, ← hhead]; exact hft.1)
      have hlb : g.freeList ≠ b := fun he => hb (by rw [← he, ← hhead]; exact hft.1)
      have htail : g.freePrev g.freeList = t := by rw [← hhead, hft.2]
      have htb : t ≠ b := fun he => hb (he ▸ hmt)
      have hn : (insertIntoFreeList g b).freeNext = update (update g.freeNext b g.freeList) t b := by
        simp [insertIntoFreeList, hne, hlb, htail]
      have hp : (insertIntoFreeList g b).freePrev = update (update g.freePrev b t) g.freeList b := by
        simp [insertIntoFreeList, hne, hlb, htail]
      refine h.ring.link_head h.nodup ⟨by simp [hn], by simp [hp, Ne.symm hlb]⟩ ?_ ?_
      · rintro y ⟨rfl, -⟩
        exact ⟨by simp [hn, Ne.symm htb, hhead], by simp [hp, hhead]⟩
      · rintro x hx y hy hxt ⟨rfl, hxy⟩
        have hxb : x ≠ b := fun he => hb (he ▸ hx)
        have hyb : g.freeNext x ≠ b := fun he => hb (he ▸ hy)
        have hyl : g.freeNext x ≠ g.freeList := fun he => hxt (hxy.symm.trans (by rw [he, htail]))
        exact ⟨by simp [hn, hxb, hxt], by simp [hp, hyb, hyl, hxy]⟩
  · unfold insertIntoFreeList
    dsimp only
    split_ifs <;> rfl
  · rw [List.mem_cons, h.mem, hL, insertIntoFreeList_isFree]
    by_cases hx : x = b <;> simp [hx]

end BareKernel.Memory

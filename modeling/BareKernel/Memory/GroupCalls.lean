import BareKernel.Memory.GroupShape
import Mathlib.Data.List.Perm.Subperm

/-! What one call of the group allocator does to the block list and the free
list. A malloc keeps the extent of the block list. A free keeps it too, unless
it merges a block with its neighbour around the end of the ring: freeing the last
block while the lowest one is free, or the lowest one while the last is free,
moves the whole list up. -/

namespace BareKernel.Memory

open Function (update)
open Links

variable {g g' : Group} {lo a b n req : ℕ} {A B L F live : List ℕ}

/-! ### group_malloc -/

theorem alignUp_dvd (x : ℕ) : 8 ∣ alignUp x := Nat.dvd_mul_left ..

theorem alignUp_eq {x : ℕ} (h8 : 8 ∣ x) (hx : x < wordSize) : alignUp x = x := by
  simp only [alignUp, wordSize] at *
  omega

/-- The last block of the free list points back at the head. -/
theorem FreeList.next_last (h : FreeList g L (A ++ [b])) : g.freeNext b = g.freeList := by
  obtain ⟨f, hfh⟩ : ∃ f, (A ++ [b]).head? = some f := by
    rw [← Option.isSome_iff_exists]; simp
  have hh := h.head
  rw [hfh] at hh
  exact (h.ring.2 b (by simp) f hfh).1.trans hh

theorem FreeList.next_mid {c : ℕ} (h : FreeList g L (A ++ b :: c :: B)) :
    g.freeNext b = c ∧ c ≠ g.freeList := by
  refine ⟨h.ring.toFwd.fwd_mid, ?_⟩
  have hnd := h.nodup
  rw [← h.head]
  rcases A with _ | ⟨d, A⟩
  · rintro rfl
    simp at hnd
  · rintro rfl
    simp at hnd

/-- The loop stops at the first block that fits, in free-list order. -/
theorem groupSearch_eq (h : FreeList g L (A ++ b :: B)) (hz : 0 ∉ A ++ b :: B) {fuel : ℕ}
    (hf : B.length < fuel) :
    groupSearch g req fuel b = some (((b :: B).find? fun c => req ≤ g.size c).getD 0) := by
  induction B generalizing A b fuel with
  | nil =>
    obtain ⟨fuel, rfl⟩ := Nat.exists_eq_succ_of_ne_zero (by omega : fuel ≠ 0)
    have hhead := h.next_last
    by_cases hfit : req ≤ g.size b <;> simp [groupSearch, hfit, hhead]
  | cons c B ih =>
    obtain ⟨fuel, rfl⟩ := Nat.exists_eq_succ_of_ne_zero (by omega : fuel ≠ 0)
    obtain ⟨hbc, hcl⟩ := h.next_mid
    have hc0 : c ≠ 0 := fun he => hz (by simp [he])
    have hlen : B.length < fuel := by
      simp only [List.length_cons] at hf
      omega
    have ih' := ih (A := A ++ [b]) (by simpa using h) (by simpa using hz) hlen
    by_cases hfit : req ≤ g.size b
    · simp [groupSearch, hfit]
    · rw [groupSearch, if_neg hfit, hbc]
      simp only [ne_eq, hc0, not_false_eq_true, hcl, and_self, if_true]
      have hskip : (b :: c :: B).find? (fun c => req ≤ g.size c) =
          (c :: B).find? fun c => req ≤ g.size c := List.find?_cons_of_neg (by simpa using hfit)
      rw [ih', hskip]

theorem FreeList.zero_notMem (h : FreeList g L F) (hs : Shape g lo L) : 0 ∉ F := fun hz =>
  absurd (hs.pos_of_mem ((h.mem 0).mp hz).1) (lt_irrefl 0)

theorem FreeList.length_lt (h : FreeList g L F) (hs : Shape g lo L) : F.length ≤ g.totalSize := by
  have hsub : F ⊆ L := fun b hb => ((h.mem b).mp hb).1
  have hl := (List.subperm_of_subset h.nodup hsub).length_le
  have ht := hs.tiles.length_le
  omega

/-- The search ends with the first block of the free list that fits. -/
theorem groupSearch_freeList (h : FreeList g L F) (hs : Shape g lo L) (hne : g.freeList ≠ 0)
    (req : ℕ) :
    groupSearch g req g.totalSize g.freeList =
      some ((F.find? fun c => req ≤ g.size c).getD 0) := by
  rcases F with _ | ⟨f, T⟩
  · exact absurd h.head.symm hne
  · have hl := h.length_lt hs
    have hf : g.freeList = f := h.head.symm
    rw [hf]
    exact groupSearch_eq (A := []) h (h.zero_notMem hs) (by simp at hl ⊢; omega)

/-- Every live block of `L` other than `b` is untouched in `L'`, and no other
block became live. -/
structure Keeps (g g' : Group) (b : ℕ) (L L' : List ℕ) : Prop where
  live : ∀ x, x ≠ b → (x ∈ L' ∧ g'.isFree x = false ↔ x ∈ L ∧ g.isFree x = false)
  size : ∀ x ∈ L, x ≠ b → g.isFree x = false → g'.size x = g.size x
  userSize : ∀ x ∈ L, x ≠ b → g.isFree x = false → g'.userSize x = g.userSize x
  totalSize : g'.totalSize = g.totalSize
  memoryStart : g'.memoryStart = g.memoryStart

theorem Keeps.trans {g₁ g₂ g₃ : Group} {L₁ L₂ L₃ : List ℕ} (h : Keeps g₁ g₂ b L₁ L₂)
    (h' : Keeps g₂ g₃ b L₂ L₃) : Keeps g₁ g₃ b L₁ L₃ where
  live x hx := (h'.live x hx).trans (h.live x hx)
  size x hx hxb hf := by
    have hm := (h.live x hxb).mpr ⟨hx, hf⟩
    rw [h'.size x hm.1 hxb hm.2, h.size x hx hxb hf]
  userSize x hx hxb hf := by
    have hm := (h.live x hxb).mpr ⟨hx, hf⟩
    rw [h'.userSize x hm.1 hxb hm.2, h.userSize x hx hxb hf]
  totalSize := h'.totalSize.trans h.totalSize
  memoryStart := h'.memoryStart.trans h.memoryStart

/-- The bytes of `cur` behind its first `req` ones become a free block right after it, at
the head of the free list, when they are worth a block. -/
def Cuts (g g' : Group) (cur req : ℕ) (F F' : List ℕ) : Prop :=
  (g.size cur - req ≤ headerSize + minBlockSize ∧ g'.size cur = g.size cur ∧ F' = F) ∨
    headerSize + minBlockSize < g.size cur - req ∧
    ∃ nb, nb = cur + headerSize + req ∧ g'.size cur = req ∧ F' = nb :: F ∧ nb ≠ cur ∧
      g'.next cur = nb ∧ g'.prev nb = cur ∧ g'.isFree nb = true ∧
      nb + headerSize + g'.size nb = cur + headerSize + g.size cur

theorem groupSplit_spec {cur : ℕ} (hs : Shape g lo L) (hF : FreeList g L F) (hcur : cur ∈ F)
    (hfit : req ≤ g.size cur) (h8 : 8 ∣ req) :
    ∃ L' F', Shape (groupSplit g cur req) lo L' ∧ FreeList (groupSplit g cur req) L' F' ∧
      cur ∈ F' ∧ Cuts g (groupSplit g cur req) cur req F F' ∧ Keeps g (groupSplit g cur req) cur L L' ∧
      (Coalesced g L → ∀ b ∈ L', b ≠ cur → (groupSplit g cur req).next b ≠ cur →
        (groupSplit g cur req).isFree b = true →
        (groupSplit g cur req).isFree ((groupSplit g cur req).next b) = true →
        (groupSplit g cur req).next b = b) := by
  have hc := (hF.mem cur).mp hcur
  by_cases hrem : headerSize + minBlockSize < g.size cur - req
  · obtain ⟨A, B, rfl⟩ := List.append_of_mem hc.1
    set nb := cur + headerSize + req with hnb
    have hne : nb ≠ cur := by simp only [hnb, headerSize]; omega
    have hnot : nb ∉ A ++ cur :: B := by
      intro hm
      simp only [headerSize] at hrem
      rcases hs.tiles.disjoint hc.1 hm (Ne.symm hne) with hd | hd <;>
        simp only [hnb, headerSize] at hd <;> omega
    have hword := hs.size_lt hc.1
    have hcut : alignUp (g.size cur - req - headerSize) = g.size cur - req - headerSize := by
      have := hs.aligned cur hc.1
      have := hs.small
      simp only [headerSize] at hrem hword ⊢
      exact alignUp_eq (by omega) (by omega)
    have hmem : ∀ x, x ∈ A ++ cur :: nb :: B ↔ x = nb ∨ x ∈ A ++ cur :: B := by
      intro x; simp; tauto
    have hisFree : (groupSplit g cur req).isFree = update g.isFree nb true := by
      simp [groupSplit, hrem, ← hnb]
    have hnext : (groupSplit g cur req).next = update (update g.next nb (g.next cur)) cur nb := by
      simp [groupSplit, hrem, ← hnb, Ne.symm hne]
    refine ⟨A ++ cur :: nb :: B, nb :: F, ?_, ?_, by simp [hcur],
      Or.inr ⟨hrem, nb, hnb, ?_, rfl, hne, ?_, ?_, ?_, ?_⟩, ?_,
      fun hco b hb hbc hnc hbf hnf => ?_⟩
    · refine hs.split h8 (by simp only [headerSize] at *; omega) hnb ?_ ?_ ?_ ?_
      · simp [groupSplit, hrem, ← hnb, hcut]
      · exact hnext
      · simp [groupSplit, hrem, ← hnb, Ne.symm hne]
      · simp [groupSplit, hrem]
    · have hbefore : ∀ g₁ : Group, g₁.freeNext = g.freeNext → g₁.freePrev = g.freePrev →
          g₁.freeList = g.freeList → g₁.isFree = update g.isFree nb true →
          FreeList (insertIntoFreeList g₁ nb) (A ++ cur :: nb :: B) (nb :: F) := by
        intro g₁ hn hp hl hi
        have hF₁ : FreeList g₁ (A ++ cur :: B) F := by
          refine hF.congr hn hp hl fun x => and_congr_right fun hx => ?_
          have hxn : x ≠ nb := fun he => hnot (he ▸ hx)
          simp [hi, hxn]
        exact hF₁.insert (fun hm => hnot ((hF.mem nb).mp hm).1) (hF.zero_notMem hs) hmem
      have hins := hbefore { g with
        size := update g.size nb (alignUp (g.size cur - req - headerSize))
        userSize := update g.userSize nb 0
        isFree := update g.isFree nb true
        next := update (update g.next nb (g.next cur)) cur nb
        prev := update (update g.prev nb cur) (g.next cur) nb } rfl rfl rfl rfl
      refine hins.congr ?_ ?_ ?_ ?_
      all_goals simp [groupSplit, hrem, ← hnb, Ne.symm hne]
    · simp [groupSplit, hrem]
    · rw [hnext, Function.update_self]
    · have hback : nb ≠ g.next cur := fun he => hnot (he ▸ (hs.ring.fwd_mem hc.1).1)
      simp [groupSplit, hrem, ← hnb, hback, Ne.symm hne]
    · rw [hisFree, Function.update_self]
    · have hpay : (groupSplit g cur req).size nb = g.size cur - req - headerSize := by
        simp [groupSplit, hrem, ← hnb, hcut, hne]
      rw [hpay]
      omega
    · refine ⟨fun x hx => ?_, fun x hx hxc hf => ?_, fun x hx hxc hf => ?_, ?_, ?_⟩
      · rw [hisFree, hmem]
        by_cases hxn : x = nb
        · subst hxn; simp [hnot]
        · simp [hxn]
      · have hxn : x ≠ nb := fun he => hnot (he ▸ hx)
        simp [groupSplit, hrem, ← hnb, hxc, hxn]
      · have hxn : x ≠ nb := fun he => hnot (he ▸ hx)
        simp [groupSplit, hrem, ← hnb, hxn]
      · simp [groupSplit, hrem]
      · simp [groupSplit, hrem]
    · rw [hnext, Function.update_of_ne hbc] at hnc hnf ⊢
      rw [hisFree] at hbf hnf
      by_cases hbn : b = nb
      · -- the new block has the old successor of `cur` behind it
        subst hbn
        have hold := hs.ring.fwd_mem hc.1
        have hon : g.next cur ≠ nb := fun he => hnot (he ▸ hold.1)
        rw [Function.update_self] at hnc hnf ⊢
        rw [Function.update_of_ne hon] at hnf
        exact absurd (hco cur hc.1 hc.2 hnf) hnc
      · have hbL := ((hmem b).mp hb).resolve_left hbn
        have hold := hs.ring.fwd_mem hbL
        have hon : g.next b ≠ nb := fun he => hnot (he ▸ hold.1)
        rw [Function.update_of_ne hbn] at hnc hnf hbf ⊢
        rw [Function.update_of_ne hon] at hnf
        exact hco b hbL hbf hnf
  · have hsame : groupSplit g cur req = g := by simp [groupSplit, hrem]
    rw [hsame]
    exact ⟨L, F, hs, hF, hcur, Or.inl ⟨not_lt.mp hrem, rfl, rfl⟩,
      ⟨fun _ _ => Iff.rfl, fun _ _ _ _ => rfl, fun _ _ _ _ => rfl, rfl, rfl⟩,
      fun hco b hb _ _ => hco b hb⟩

@[simp] theorem groupSplit_currentBlocks (g : Group) (cur req : ℕ) :
    (groupSplit g cur req).currentBlocks = g.currentBlocks := by
  unfold groupSplit
  dsimp only
  split_ifs
  · simp
  · rfl

theorem groupTake_spec {cur : ℕ} (hs : Shape g lo L) (hF : FreeList g L F) (hcur : cur ∈ F)
    (hfit : req ≤ g.size cur) (h8 : 8 ∣ req) (size : ℕ) :
    ∃ L' F', Shape (groupTake g cur req size) lo L' ∧ FreeList (groupTake g cur req size) L' (F'.erase cur) ∧
      Cuts g (groupTake g cur req size) cur req F F' ∧
      cur ∈ L' ∧ (groupTake g cur req size).isFree cur = false ∧
      (groupTake g cur req size).userSize cur = size ∧
      Keeps g (groupTake g cur req size) cur L L' ∧
      (Coalesced g L → Coalesced (groupTake g cur req size) L') := by
  obtain ⟨L', F', hs', hF', hcur', hcut, hk, hco'⟩ := groupSplit_spec hs hF hcur hfit h8
  have hpos : cur ≠ 0 := fun he => hF.zero_notMem hs (he ▸ hcur)
  have hfree : (groupTake g cur req size).isFree =
      update (groupSplit g cur req).isFree cur false := by
    simp [groupTake, removeFromFreeList_isFree _ _ hpos]
  have hshape : Shape (groupTake g cur req size) lo L' :=
    hs'.congr (by simp [groupTake]) (by simp [groupTake]) (by simp [groupTake]) (by simp [groupTake])
  have hlist : FreeList (groupTake g cur req size) L' (F'.erase cur) := by
    have hrem := hF'.remove hcur' hpos
    exact ⟨hrem.ring, hrem.head, hrem.nodup, hrem.mem⟩
  refine ⟨L', F', hshape, hlist, ?_, ((hF'.mem cur).mp hcur').1, by simp [hfree],
    by simp [groupTake], hk.trans ⟨fun x hx => by simp [hfree, hx], fun x _ _ _ => by simp [groupTake],
      fun x _ hx _ => by simp [groupTake, hx], by simp [groupTake], by simp [groupTake]⟩,
    fun hco b hb hbf hnf => ?_⟩
  · refine hcut.imp (fun hsame => by simpa [groupTake] using hsame) ?_
    rintro ⟨hrem, nb, hnb, hsize, hlist, hne, hn, hp, hf, hsum⟩
    refine ⟨hrem, nb, hnb, ?_, hlist, hne, ?_, ?_, ?_, ?_⟩
    · simpa [groupTake] using hsize
    · simpa [groupTake] using hn
    · simpa [groupTake] using hp
    · rw [hfree, Function.update_of_ne hne]
      exact hf
    · simpa [groupTake] using hsum
  have hnext : (groupTake g cur req size).next = (groupSplit g cur req).next := by simp [groupTake]
  rw [hfree] at hbf hnf
  rw [hnext] at hnf ⊢
  have hbc : b ≠ cur := by rintro rfl; simp at hbf
  have hnc : (groupSplit g cur req).next b ≠ cur := by intro he; simp [he] at hnf
  rw [Function.update_of_ne hbc] at hbf
  rw [Function.update_of_ne hnc] at hnf
  exact hco' hco b hb hbc hnc hbf hnf

/-! ### group_free -/

/-- The lowest header after `mergeNext`. -/
def nextLo (g : Group) (lo b : ℕ) : ℕ := if g.isFree (g.next b) then loAfter g lo (g.next b) else lo

/-- The lowest header after `mergePrev`. -/
def prevLo (g : Group) (lo b : ℕ) : ℕ := if g.isFree (g.prev b) then loAfter g lo b else lo

theorem mergeNext_spec (hs : Shape g lo L) (hF : FreeList g L F) (hb : b ∈ L)
    (hf : g.isFree b = false) :
    ∃ L' F', Shape (mergeNext g b) (nextLo g lo b) L' ∧ FreeList (mergeNext g b) L' F' ∧
      b ∈ L' ∧ (mergeNext g b).isFree b = false ∧ Keeps g (mergeNext g b) b L L' ∧
      (Coalesced g L → Coalesced (mergeNext g b) L' ∧
        (mergeNext g b).isFree ((mergeNext g b).next b) = false) := by
  have hn := hs.ring.fwd_mem hb
  have hn0 : g.next b ≠ 0 := (hs.pos_of_mem hn.1).ne'
  by_cases hfree : g.isFree (g.next b) = true
  · set n := g.next b with hnb
    have hne : n ≠ b := by rintro he; rw [he, hf] at hfree; simp at hfree
    have hnF : n ∈ F := (hF.mem n).mpr ⟨hn.1, hfree⟩
    have hfit := hs.size_add_lt hb hn.1 (Ne.symm hne)
    have hisFree : (mergeNext g b).isFree = update g.isFree n false := by
      simp [mergeNext, ← hnb, hn0, hfree, removeFromFreeList_isFree _ _ hn0]
    have hshape : Shape (mergeNext g b) (loAfter g lo n) (L.erase n) := by
      refine hs.absorb hb hnb.symm hne ?_ ?_ ?_ ?_ <;>
        simp [mergeNext, ← hnb, hn0, hfree, hne, Nat.mod_eq_of_lt hfit]
    have hlist : FreeList (mergeNext g b) (L.erase n) (F.erase n) := by
      refine (hF.remove hnF hn0).congr ?_ ?_ ?_ fun x => ?_
      any_goals simp [mergeNext, ← hnb, hn0, hfree]
      rw [hs.tiles.nodup.mem_erase_iff, removeFromFreeList_isFree _ _ hn0]
      by_cases hx : x = n <;> simp [hx]
    refine ⟨L.erase n, F.erase n, by simpa [nextLo, ← hnb, hfree] using hshape, hlist,
      (List.mem_erase_of_ne (Ne.symm hne)).mpr hb, by simp [hisFree, Ne.symm hne, hf], ?_, fun hco => ?_⟩
    on_goal 2 =>
      have hnext : (mergeNext g b).next = update g.next b (g.next n) := by
        simp [mergeNext, ← hnb, hn0, hfree]
      refine ⟨fun x hx hxf hnf => ?_, ?_⟩
      · rw [hisFree] at hxf hnf
        rw [hnext] at hnf ⊢
        have hxb : x ≠ b := by rintro rfl; simp [Ne.symm hne, hf] at hxf
        have hxn := (hs.tiles.nodup.mem_erase_iff.mp hx).1
        rw [Function.update_of_ne hxb] at hnf ⊢
        have hnn : g.next x ≠ n := by intro he; simp [he] at hnf
        rw [Function.update_of_ne hxn] at hxf
        rw [Function.update_of_ne hnn] at hnf
        exact hco x (List.mem_of_mem_erase hx) hxf hnf
      · rw [hnext, hisFree, Function.update_self]
        by_cases hnn : g.next n = n
        · rw [hnn, Function.update_self]
        · rw [Function.update_of_ne hnn, Bool.eq_false_iff]
          exact fun hnf => hnn (hco n hn.1 hfree hnf)
    refine ⟨fun x hx => ?_, fun x _ hx _ => ?_, fun x _ _ _ => ?_, ?_, ?_⟩
    · rw [hisFree, hs.tiles.nodup.mem_erase_iff]
      by_cases hxn : x = n <;> simp [hxn, hfree]
    all_goals simp [mergeNext, ← hnb, hn0, hfree]
    simp [hx]
  · have hsame : mergeNext g b = g := by simp [mergeNext, hfree]
    rw [hsame]
    exact ⟨L, F, by simpa [nextLo, hfree] using hs, hF, hb, hf,
      ⟨fun _ _ => Iff.rfl, fun _ _ _ _ => rfl, fun _ _ _ _ => rfl, rfl, rfl⟩,
      fun hco => ⟨hco, Bool.eq_false_iff.mpr hfree⟩⟩

/-- The last two steps of `groupFree`: merge into the previous block, and put the
result on the free list. -/
def mergePrevInsert (g : Group) (b : ℕ) : Group :=
  insertIntoFreeList (mergePrev g b).2 (mergePrev g b).1

@[simp] theorem mergeNext_currentBlocks (g : Group) (b : ℕ) :
    (mergeNext g b).currentBlocks = g.currentBlocks := by
  unfold mergeNext
  dsimp only
  split_ifs
  · simp
  · rfl

@[simp] theorem mergePrevInsert_currentBlocks (g : Group) (b : ℕ) :
    (mergePrevInsert g b).currentBlocks = g.currentBlocks := by
  unfold mergePrevInsert mergePrev
  dsimp only
  split_ifs
  · simp
  · simp

theorem mergePrevInsert_spec (hs : Shape g lo L) (hF : FreeList g L F) (hb : b ∈ L)
    (hf : g.isFree b = false) :
    ∃ L' F', Shape (mergePrevInsert g b) (prevLo g lo b) L' ∧ FreeList (mergePrevInsert g b) L' F' ∧
      (b ∈ L' → (mergePrevInsert g b).isFree b = true) ∧ Keeps g (mergePrevInsert g b) b L L' ∧
      (Coalesced g L → g.isFree (g.next b) = false → Coalesced (mergePrevInsert g b) L') := by
  have hp := hs.ring.bwd_mem hb
  have hp0 : g.prev b ≠ 0 := (hs.pos_of_mem hp.1).ne'
  by_cases hfree : g.isFree (g.prev b) = true
  · set p := g.prev b with hpb
    have hne : p ≠ b := by rintro he; rw [he, hf] at hfree; simp at hfree
    have hpF : p ∈ F := (hF.mem p).mpr ⟨hp.1, hfree⟩
    have hfit := hs.size_add_lt hp.1 hb hne
    have hfst : (mergePrev g b).1 = p := by simp [mergePrev, ← hpb, hp0, hfree]
    have hisFree : (mergePrevInsert g b).isFree = update g.isFree p true := by
      simp [mergePrevInsert, hfst]
      simp [mergePrev, ← hpb, hp0, hfree, removeFromFreeList_isFree _ _ hp0]
    have hshape : Shape (mergePrevInsert g b) (loAfter g lo b) (L.erase b) := by
      refine hs.absorb hp.1 hp.2 (Ne.symm hne) ?_ ?_ ?_ ?_ <;>
        simp [mergePrevInsert, mergePrev, ← hpb, hp0, hfree, Nat.mod_eq_of_lt hfit, Ne.symm hne]
    have hlist : FreeList (mergePrev g b).2 (L.erase b) (F.erase p) := by
      refine (hF.remove hpF hp0).congr ?_ ?_ ?_ fun x => ?_
      any_goals simp [mergePrev, ← hpb, hp0, hfree]
      rw [hs.tiles.nodup.mem_erase_iff, removeFromFreeList_isFree _ _ hp0]
      by_cases hx : x = b <;> simp [hx, hf, Ne.symm hne]
    have hz : 0 ∉ F.erase p := fun h0 => hF.zero_notMem hs (List.mem_of_mem_erase h0)
    have hins : FreeList (mergePrevInsert g b) (L.erase b) (p :: F.erase p) := by
      unfold mergePrevInsert
      rw [hfst]
      refine hlist.insert (fun hm => (hF.nodup.mem_erase_iff.mp hm).1 rfl) hz fun x => ?_
      have hpL : p ∈ L.erase b := (List.mem_erase_of_ne hne).mpr hp.1
      constructor
      · exact Or.inr
      · rintro (rfl | hx) <;> assumption
    refine ⟨L.erase b, p :: F.erase p, by simpa [prevLo, ← hpb, hfree] using hshape, hins,
      fun hm => absurd rfl (hs.tiles.nodup.mem_erase_iff.mp hm).1, ?_, fun hco hnb x hx hxf hnf => ?_⟩
    on_goal 2 =>
      have hnext : (mergePrevInsert g b).next = update g.next p (g.next b) := by
        simp [mergePrevInsert, mergePrev, ← hpb, hp0, hfree]
      have hsame : update g.isFree p true = g.isFree := by rw [← hfree, Function.update_eq_self]
      rw [hisFree, hsame] at hxf hnf
      rw [hnext] at hnf ⊢
      by_cases hxp : x = p
      · rw [hxp, Function.update_self, hnb] at hnf
        exact absurd hnf (by simp)
      · rw [Function.update_of_ne hxp] at hnf ⊢
        exact hco x (List.mem_of_mem_erase hx) hxf hnf
    refine ⟨fun x hx => ?_, fun x _ hx hxf => ?_, fun x _ hx hxf => ?_, ?_, ?_⟩
    · rw [hisFree, hs.tiles.nodup.mem_erase_iff]
      by_cases hxp : x = p <;> simp [hxp, hx, hfree]
    · have hxp : x ≠ p := by rintro rfl; rw [hxf] at hfree; simp at hfree
      simp [mergePrevInsert, mergePrev, ← hpb, hp0, hfree, hxp]
    · have hxp : x ≠ p := by rintro rfl; rw [hxf] at hfree; simp at hfree
      simp [mergePrevInsert, mergePrev, ← hpb, hp0, hfree, hxp]
    all_goals simp [mergePrevInsert, mergePrev, ← hpb, hp0, hfree]
  · have hsame : mergePrevInsert g b = insertIntoFreeList g b := by
      simp [mergePrevInsert, mergePrev, hfree]
    have hbF : b ∉ F := fun hm => by simp [((hF.mem b).mp hm).2] at hf
    rw [hsame]
    refine ⟨L, b :: F, ?_, hF.insert hbF (hF.zero_notMem hs) fun x => ?_, fun _ => by simp, ?_,
      fun hco hnb x hx hxf hnf => ?_⟩
    · simp only [prevLo, hfree]
      exact hs.congr (by simp) (by simp) (by simp) (by simp)
    · constructor
      · exact Or.inr
      · rintro (rfl | hx) <;> assumption
    · exact ⟨fun x hx => by simp [hx], fun x _ _ _ => by simp, fun x _ hx _ => by simp [hx],
        by simp, by simp⟩
    · rw [insertIntoFreeList_next, insertIntoFreeList_isFree] at *
      by_cases hxb : x = b
      · subst hxb
        by_contra hne
        rw [Function.update_of_ne hne, hnb] at hnf
        exact absurd hnf (by simp)
      · have hnx : g.next x ≠ b := by
          intro he
          have hback := (hs.ring.fwd_mem hx).2
          rw [he] at hback
          rw [Function.update_of_ne hxb, ← hback] at hxf
          exact hfree hxf
        rw [Function.update_of_ne hxb] at hxf
        rw [Function.update_of_ne hnx] at hnf
        exact hco x hx hxf hnf

/-- The free the region's ends are merged by: the block behind the freed one is
the lowest, or the block before the freed one is the last. -/
def MergesAcrossEnds (g : Group) (ptr : ℕ) : Prop :=
  let b := ptr - headerSize
  (g.isFree (g.next b) = true ∧ g.next b < b) ∨
    (g.isFree (g.prev b) = true ∧ b < g.prev b ∧ g.prev b ≠ g.next b)

theorem Shape.next_lt (h : Shape g lo L) (hb : b ∈ L) (hne : g.next b ≠ b) :
    g.next b < b ↔ g.next b = lo := by
  rcases h.next_cases hb with ⟨A, B, hL⟩ | ⟨hlo, -⟩
  · have ht := h.tiles
    rw [hL] at ht
    have hA := (ht.bounds (List.mem_append_right A List.mem_cons_self)).1
    have hp := ht.pairwise
    simp only [List.pairwise_append, List.pairwise_cons, List.mem_cons, headerSize] at hp
    have := hp.2.1.1 _ (Or.inl rfl)
    omega
  · have := (h.tiles.bounds hb).1
    omega

theorem Shape.lt_prev (h : Shape g lo L) (hb : b ∈ L) (hne : g.prev b ≠ b) :
    b < g.prev b ↔ b = lo := by
  have hp := h.ring.bwd_mem hb
  have hlt := h.next_lt hp.1 (by rw [hp.2]; exact Ne.symm hne)
  rwa [hp.2] at hlt

theorem loAfter_eq : loAfter g lo n = lo ↔ n ≠ lo := by
  unfold loAfter
  split_ifs with hn
  · simp only [headerSize]
    omega
  · simp [hn]

theorem le_loAfter (g : Group) (lo n : ℕ) : lo ≤ loAfter g lo n := by
  unfold loAfter
  split_ifs <;> omega

theorem le_prevLo (g : Group) (lo b : ℕ) : lo ≤ prevLo g lo b := by
  unfold prevLo
  split_ifs
  · exact le_loAfter ..
  · exact le_rfl

/-- The list moves up exactly when the free merges across the ends. -/
theorem prevLo_nextLo (hs : Shape g lo L) (hb : b ∈ L) (hf : g.isFree b = false) :
    prevLo (mergeNext g b) (nextLo g lo b) b = lo ↔ ¬MergesAcrossEnds g (b + headerSize) := by
  have hn := hs.ring.fwd_mem hb
  have hp := hs.ring.bwd_mem hb
  have hn0 : g.next b ≠ 0 := (hs.pos_of_mem hn.1).ne'
  have hlt : g.isFree (g.next b) = true → (g.next b < b ↔ g.next b = lo) := fun h =>
    hs.next_lt hb fun he => by simp [he, hf] at h
  have hgt : g.isFree (g.prev b) = true → (b < g.prev b ↔ b = lo) := fun h =>
    hs.lt_prev hb fun he => by simp [he, hf] at h
  simp only [MergesAcrossEnds, Nat.add_sub_cancel]
  by_cases hfn : g.isFree (g.next b) = true
  · by_cases hlo : g.next b = lo
    · -- `b` is the last block and the lowest one is free
      have hmoved : lo < nextLo g lo b := by
        have h1 : loAfter g lo (g.next b) ≠ lo := fun he => loAfter_eq.mp he hlo
        have h2 := le_loAfter g lo (g.next b)
        simp only [nextLo, hfn, if_true]
        omega
      have hle := le_prevLo (mergeNext g b) (nextLo g lo b) b
      have := (hlt hfn).mpr hlo
      simp only [hfn, this, and_self, true_or, not_true, iff_false]
      omega
    · have hstay : nextLo g lo b = lo := by
        simp only [nextLo, hfn, if_true]
        exact loAfter_eq.mpr hlo
      have hnb : g.next b ≠ b := fun he => by simp [he, hf] at hfn
      have hfree' : (mergeNext g b).isFree = update g.isFree (g.next b) false := by
        simp [mergeNext, hn0, hfn, removeFromFreeList_isFree _ _ hn0]
      have hprev' : (mergeNext g b).prev = update g.prev (g.next (g.next b)) b := by
        simp [mergeNext, hn0, hfn, hnb]
      rw [hstay]
      by_cases htwo : g.prev b = g.next b
      · have hback : g.next (g.next b) = b := htwo ▸ hp.2
        simp [prevLo, hfree', hprev', hback, Ne.symm hnb, hf, htwo, (hlt hfn).not.mpr hlo]
      · have hback : b ≠ g.next (g.next b) := fun he => htwo (by
          rw [he, (hs.ring.fwd_mem hn.1).2, ← he])
        by_cases hfp : g.isFree (g.prev b) = true
        · simp [prevLo, hfree', hprev', hback, htwo, hfp, (hlt hfn).not.mpr hlo, hgt hfp, loAfter_eq]
        · simp [prevLo, hfree', hprev', hback, htwo, hfp, (hlt hfn).not.mpr hlo]
  · have hsame : mergeNext g b = g := by simp [mergeNext, hfn]
    have hstay : nextLo g lo b = lo := by simp [nextLo, hfn]
    rw [hsame, hstay]
    by_cases hfp : g.isFree (g.prev b) = true
    · have hpn : g.prev b ≠ g.next b := fun he => hfn (he ▸ hfp)
      simp [prevLo, hfn, hfp, hpn, hgt hfp, loAfter_eq]
    · simp [prevLo, hfn, hfp]

/-! ### One call -/

/-- What holds of the allocator when `live` are the pointers handed out. -/
structure GroupInv (g : Group) (live : List ℕ) (lo : ℕ) (L F : List ℕ) : Prop where
  shape : Shape g lo L
  free : FreeList g L F
  nodup : live.Nodup
  live : ∀ p, p ∈ live ↔ ∃ b ∈ L, g.isFree b = false ∧ p = b + headerSize
  user : ∀ b ∈ L, g.isFree b = false → g.userSize b ≠ 0

theorem GroupInv.mem_live (h : GroupInv g live lo L F) :
    b + headerSize ∈ live ↔ b ∈ L ∧ g.isFree b = false := by
  rw [h.live]
  constructor
  · rintro ⟨c, hc, hf, hbc⟩
    obtain rfl : b = c := by omega
    exact ⟨hc, hf⟩
  · exact fun hb => ⟨b, hb.1, hb.2, rfl⟩

/-- The block at `ptr` has the same size, user size and free mark. -/
def SameBlock (g g' : Group) (ptr : ℕ) : Prop :=
  g'.size (ptr - headerSize) = g.size (ptr - headerSize) ∧
    g'.userSize (ptr - headerSize) = g.userSize (ptr - headerSize) ∧
    g'.isFree (ptr - headerSize) = g.isFree (ptr - headerSize)

theorem SameBlock.trans {g₁ g₂ g₃ : Group} {ptr : ℕ} (h : SameBlock g₁ g₂ ptr)
    (h' : SameBlock g₂ g₃ ptr) : SameBlock g₁ g₃ ptr :=
  ⟨h'.1.trans h.1, h'.2.1.trans h.2.1, h'.2.2.trans h.2.2⟩

/-- The live blocks other than the one at `ptr` are the same. -/
def SameLive (g g' : Group) (live : List ℕ) (ptr : ℕ) : Prop :=
  ∀ p ∈ live, p ≠ ptr → SameBlock g g' p

theorem Keeps.sameLive {L' : List ℕ} (h : Keeps g g' b L L') (hi : GroupInv g live lo L F) :
    SameLive g g' live (b + headerSize) := by
  intro p hp hne
  obtain ⟨c, hc, hf, rfl⟩ := (hi.live p).mp hp
  have hcb : c ≠ b := by rintro rfl; exact hne rfl
  rw [SameBlock, Nat.add_sub_cancel]
  exact ⟨h.size c hc hcb hf, h.userSize c hc hcb hf, by rw [((h.live c hcb).mpr ⟨hc, hf⟩).2, hf]⟩

/-- `groupMalloc` returns; it fails and changes nothing, or adds a live block. -/
theorem groupMalloc_spec (h : GroupInv g live lo L F) (size : ℕ) :
    groupMalloc g size = some (0, g) ∨
    ∃ cur g' L' F', groupMalloc g size = some (cur + headerSize, g') ∧
      GroupInv g' ((cur + headerSize) :: live) lo L' F' ∧ SameLive g g' live (cur + headerSize) ∧
      g'.memoryStart = g.memoryStart ∧ g'.totalSize = g.totalSize ∧
      (Coalesced g L → Coalesced g' L') ∧ g.currentBlocks < maxBlocks ∧
      g'.currentBlocks = g.currentBlocks + 1 := by
  by_cases hfail : size = 0 ∨ g.freeList = 0 ∨ maxBlocks ≤ g.currentBlocks
  · exact Or.inl (by simp [groupMalloc, hfail])
  · have hne : g.freeList ≠ 0 := fun he => hfail (Or.inr (Or.inl he))
    have hsearch := groupSearch_freeList h.free h.shape hne (alignUp size)
    rcases hfind : F.find? (fun c => alignUp size ≤ g.size c) with _ | cur
    · exact Or.inl (by simp [groupMalloc, hfail, hsearch, hfind])
    · have hcur := List.mem_of_find?_eq_some hfind
      have hfit : alignUp size ≤ g.size cur := by simpa using List.find?_some hfind
      have hcL := (h.free.mem cur).mp hcur
      have hc0 : cur ≠ 0 := (h.shape.pos_of_mem hcL.1).ne'
      obtain ⟨L', F', hs', hF', -, hcL', hcf', huser, hk, hco⟩ :=
        groupTake_spec h.shape h.free hcur hfit (alignUp_dvd size) size
      have hnotlive : cur + headerSize ∉ live := fun hm => by
        simp [(h.mem_live.mp hm).2] at hcL
      have hlt : g.currentBlocks < maxBlocks := by
        by_contra he
        exact hfail (Or.inr (Or.inr (not_lt.mp he)))
      have hcount : (groupTake g cur (alignUp size) size).currentBlocks = g.currentBlocks + 1 := by
        simp only [groupTake, removeFromFreeList_currentBlocks, groupSplit_currentBlocks]
        simp only [maxBlocks, wordSize] at *
        omega
      refine Or.inr ⟨cur, groupTake g cur (alignUp size) size, L', F'.erase cur, ?_, ?_, hk.sameLive h,
        hk.memoryStart, hk.totalSize, hco, hlt, hcount⟩
      · simp [groupMalloc, hfail, hsearch, hfind, hc0]
      · refine ⟨hs', hF', List.nodup_cons.mpr ⟨hnotlive, h.nodup⟩, fun p => ?_, fun b hb hf => ?_⟩
        · rw [List.mem_cons, h.live]
          constructor
          · rintro (rfl | ⟨b, hb, hf, rfl⟩)
            · exact ⟨cur, hcL', hcf', rfl⟩
            · have hbc : b ≠ cur := by rintro rfl; simp [hf] at hcL
              exact ⟨b, ((hk.live b hbc).mpr ⟨hb, hf⟩).1, ((hk.live b hbc).mpr ⟨hb, hf⟩).2, rfl⟩
          · rintro ⟨b, hb, hf, rfl⟩
            by_cases hbc : b = cur
            · exact Or.inl (by rw [hbc])
            · exact Or.inr ⟨b, ((hk.live b hbc).mp ⟨hb, hf⟩).1, ((hk.live b hbc).mp ⟨hb, hf⟩).2, rfl⟩
        · by_cases hbc : b = cur
          · rw [hbc, huser]
            exact fun he => hfail (Or.inl he)
          · have hb' := (hk.live b hbc).mp ⟨hb, hf⟩
            rw [hk.userSize b hb'.1 hbc hb'.2]
            exact h.user b hb'.1 hb'.2

/-- The state behind a free of the block `b`. -/
def groupGiveBack (g : Group) (b : ℕ) : Group :=
  let g₁ := mergePrevInsert (mergeNext { g with userSize := update g.userSize b 0 } b) b
  { g₁ with
    currentBlocks := (g₁.currentBlocks + (wordSize - 1)) % wordSize
    totalFreed := (g₁.totalFreed + g.userSize b) % wordSize }

/-- A free of a live block in the region takes it back. -/
theorem groupFree_eq (hf : g.isFree b = false) (huser : g.userSize b ≠ 0)
    (hlow : g.memoryStart + headerSize ≤ b + headerSize) (hhigh : b + headerSize < g.memoryStart + g.totalSize) :
    groupFree g (b + headerSize) = (g.userSize b, groupGiveBack g b) := by
  have hb0 : b + headerSize ≠ 0 := by simp [headerSize]
  have hrange : ¬(b + headerSize < g.memoryStart + headerSize ∨ g.memoryStart + g.totalSize ≤ b + headerSize) := by
    omega
  simp only [groupFree, hb0, hrange, Nat.add_sub_cancel, hf, huser, if_false]
  simp [groupGiveBack, mergePrevInsert]

/-- `groupFree` refuses the pointer and changes nothing, or takes the block back. -/
theorem groupFree_spec (h : GroupInv g live lo L F) {ptr : ℕ} (hptr : ptr ∈ live) :
    groupFree g ptr = (0, g) ∨
    ∃ freed g' lo' L' F', groupFree g ptr = (freed, g') ∧ freed ≠ 0 ∧
      GroupInv g' (live.erase ptr) lo' L' F' ∧ (lo' = lo ↔ ¬MergesAcrossEnds g ptr) ∧
      SameLive g g' live ptr ∧ g'.memoryStart = g.memoryStart ∧ g'.totalSize = g.totalSize ∧
      (Coalesced g L → Coalesced g' L') ∧
      g'.currentBlocks = (g.currentBlocks + (wordSize - 1)) % wordSize := by
  obtain ⟨b, hb, hf, rfl⟩ := (h.live ptr).mp hptr
  by_cases hrange : b + headerSize < g.memoryStart + headerSize ∨
      g.memoryStart + g.totalSize ≤ b + headerSize
  · refine Or.inl ?_
    simp only [groupFree, hrange, if_true]
    split_ifs <;> rfl
  · have huser := h.user b hb hf
    set g₁ : Group := { g with userSize := update g.userSize b 0 } with hg₁
    have hs₁ : Shape g₁ lo L := h.shape.congr rfl rfl rfl rfl
    have hF₁ : FreeList g₁ L F := ⟨h.free.ring, h.free.head, h.free.nodup, h.free.mem⟩
    have hlo : prevLo (mergeNext g₁ b) (nextLo g₁ lo b) b = lo ↔
        ¬MergesAcrossEnds g (b + headerSize) := prevLo_nextLo hs₁ hb hf
    have hk₁ : Keeps g g₁ b L L :=
      ⟨fun _ _ => Iff.rfl, fun _ _ _ _ => rfl, fun x _ hx _ => by simp [hg₁, hx], rfl, rfl⟩
    obtain ⟨L₂, F₂, hs₂, hF₂, hb₂, hf₂, hk₂, hco₂⟩ := mergeNext_spec hs₁ hF₁ hb hf
    obtain ⟨L₃, F₃, hs₃, hF₃, hb₃, hk₃, hco₃⟩ := mergePrevInsert_spec hs₂ hF₂ hb₂ hf₂
    have hk := hk₁.trans (hk₂.trans hk₃)
    set g₃ := mergePrevInsert (mergeNext g₁ b) b with hg₃
    have hsame : SameLive g g₃ live (b + headerSize) := hk.sameLive h
    have hrun : groupFree g (b + headerSize) = (g.userSize b, { g₃ with
        currentBlocks := (g₃.currentBlocks + (wordSize - 1)) % wordSize
        totalFreed := (g₃.totalFreed + g.userSize b) % wordSize }) :=
      groupFree_eq hf huser (by omega) (by omega)
    have hcount : g₃.currentBlocks = g.currentBlocks := by
      rw [hg₃, mergePrevInsert_currentBlocks, mergeNext_currentBlocks]
    have hmerged : Coalesced g L → Coalesced g₃ L₃ := by
      intro hco
      have hco₁ : Coalesced g₁ L := hco
      exact hco₃ (hco₂ hco₁).1 (hco₂ hco₁).2
    refine Or.inr ⟨_, _, _, L₃, F₃, hrun, huser, ?_, hlo, fun p hp hne => ?_,
      hk.memoryStart, hk.totalSize, fun hco x hx => hmerged hco x hx, congrArg (fun n => (n + _) % _) hcount⟩
    on_goal 2 =>
      obtain ⟨hsize, huse, hfree⟩ := hsame p hp hne
      exact ⟨hsize, huse, hfree⟩
    refine ⟨hs₃.congr rfl rfl rfl rfl, ⟨hF₃.ring, hF₃.head, hF₃.nodup, hF₃.mem⟩, h.nodup.erase _,
      fun p => ?_, fun c hc hcf => ?_⟩
    · rw [h.nodup.mem_erase_iff, h.live]
      constructor
      · rintro ⟨hne, c, hc, hcf, rfl⟩
        have hcb : c ≠ b := by rintro rfl; exact hne rfl
        exact ⟨c, ((hk.live c hcb).mpr ⟨hc, hcf⟩).1, ((hk.live c hcb).mpr ⟨hc, hcf⟩).2, rfl⟩
      · rintro ⟨c, hc, hcf, rfl⟩
        have hcb : c ≠ b := by
          rintro rfl
          have := hb₃ hc
          rw [hcf] at this
          exact absurd this (by simp)
        refine ⟨by simpa using hcb, c, ?_, ?_, rfl⟩
        · exact ((hk.live c hcb).mp ⟨hc, hcf⟩).1
        · exact ((hk.live c hcb).mp ⟨hc, hcf⟩).2
    · have hcb : c ≠ b := by
        rintro rfl
        have := hb₃ hc
        rw [hcf] at this
        exact absurd this (by simp)
      have hc' := (hk.live c hcb).mp ⟨hc, hcf⟩
      have huse := hk.userSize c hc'.1 hcb hc'.2
      rw [show _ = g.userSize c from huse]
      exact h.user c hc'.1 hc'.2

end BareKernel.Memory

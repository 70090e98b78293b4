import BareKernel.Buddy.Blocks

/-! What one call of the buddy allocator does to the blocks: the order a size is
rounded to, the splitting loop of a malloc and the merging loop of a free. -/

namespace BareKernel.Buddy

open Function (update)
open Links

variable {g g' : Heap} {place : ℕ → Place} {F : ℕ → List ℕ} {b k n size : ℕ}

/-! ### Orders -/

theorem orderLoop_spec (order : ℕ) (h : order + n = maxOrder) :
    order ≤ orderLoop size n (blockBytes order) order ∧
      orderLoop size n (blockBytes order) order ≤ maxOrder ∧
      (orderLoop size n (blockBytes order) order < maxOrder →
        size ≤ blockBytes (orderLoop size n (blockBytes order) order)) ∧
      ∀ j, order ≤ j → j < orderLoop size n (blockBytes order) order → blockBytes j < size := by
  induction n generalizing order with
  | zero =>
    simp only [orderLoop]
    exact ⟨le_rfl, h.le, fun hlt => absurd hlt h.not_lt, fun j hj hlt => absurd hlt (not_lt.mpr hj)⟩
  | succ n ih =>
    have hord : order < maxOrder := by omega
    by_cases hfit : blockBytes order < size
    · have hdouble : 2 * blockBytes order % wordSize = blockBytes (order + 1) := by
        rw [blockBytes_succ, Nat.mod_eq_of_lt]
        have := blockBytes_mono hord.le
        rw [blockBytes_maxOrder] at this
        simp only [wordSize]
        omega
      obtain ⟨h1, h2, h3, h4⟩ := ih (order + 1) (by omega)
      simp only [orderLoop, hfit, hord, and_self, if_true, hdouble]
      refine ⟨by omega, h2, h3, fun j hj hlt => ?_⟩
      rcases Nat.eq_or_lt_of_le hj with rfl | hj
      · exact hfit
      · exact h4 j hj hlt
    · simp only [orderLoop, hfit, false_and, if_false]
      exact ⟨le_rfl, hord.le, fun _ => not_lt.mp hfit, fun j hj hlt => absurd hlt (not_lt.mpr hj)⟩

theorem getOrder_le (size : ℕ) : getOrder size ≤ maxOrder :=
  (orderLoop_spec 0 (Nat.zero_add maxOrder)).2.1

theorem le_blockBytes_getOrder (h : getOrder size < maxOrder) : size ≤ blockBytes (getOrder size) :=
  (orderLoop_spec 0 (Nat.zero_add maxOrder)).2.2.1 h

theorem blockBytes_lt_of_lt_getOrder (h : k < getOrder size) : blockBytes k < size :=
  (orderLoop_spec 0 (Nat.zero_add maxOrder)).2.2.2 k (Nat.zero_le k) h

theorem blockBytes_strictMono : StrictMono blockBytes :=
  strictMono_nat_of_lt_succ fun k => by
    have := minBlockSize_le k
    have hpos : minBlockSize = 64 := rfl
    rw [blockBytes_succ]
    omega

/-- A block is freed to the list of its own order. -/
theorem Sized.getOrder {size : ℕ → ℕ} (h : Sized size b k) : getOrder (size b + headerSize) = k := by
  rcases lt_trichotomy (Buddy.getOrder (size b + headerSize)) k with hlt | heq | hgt
  · have hfit := le_blockBytes_getOrder (hlt.trans_le h.le)
    exact absurd (h.least.trans hfit) (not_le.mpr (blockBytes_strictMono hlt))
  · exact heq
  · have hlt := blockBytes_lt_of_lt_getOrder hgt
    have hk := hgt.trans_le (getOrder_le _)
    rw [h.eq hk] at hlt
    exact absurd hlt (lt_irrefl _)

/-! ### Malloc -/

theorem searchLoop_spec (g : Heap) (order : ℕ) (h : maxOrder < order + n) :
    order ≤ searchLoop g n order ∧
      (∀ j, order ≤ j → j < searchLoop g n order → j ≤ maxOrder ∧ g.freeBlocks j = 0) ∧
      (searchLoop g n order ≤ maxOrder → g.freeBlocks (searchLoop g n order) ≠ 0) := by
  induction n generalizing order with
  | zero =>
    simp only [searchLoop]
    exact ⟨le_rfl, fun j hj hlt => absurd hlt (not_lt.mpr hj), fun hle => absurd h (not_lt.mpr hle)⟩
  | succ n ih =>
    by_cases hempty : order ≤ maxOrder ∧ g.freeBlocks order = 0
    · obtain ⟨h1, h2, h3⟩ := ih (order + 1) (by omega)
      simp only [searchLoop, hempty, and_self, if_true]
      refine ⟨by omega, fun j hj hlt => ?_, h3⟩
      rcases Nat.eq_or_lt_of_le hj with rfl | hj
      · exact hempty
      · exact h2 j hj hlt
    · simp only [searchLoop, hempty, if_false]
      exact ⟨le_rfl, fun j hj hlt => absurd hlt (not_lt.mpr hj), fun hle hz => hempty ⟨hle, hz⟩⟩

theorem splitBlock_spec (h : Blocks g place F) (hb : place b = .live)
    (hs : Sized g.size b (k + 1)) :
    ∃ place' F', Blocks (splitBlock g b k) place' F' ∧
      (∀ x, place' x = .live ↔ place x = .live) ∧ Sized (splitBlock g b k).size b k ∧
      (splitBlock g b k).size b + headerSize = blockBytes k ∧
      (∀ x, g.size b + headerSize = blockBytes (k + 1) ∨ x < b + blockBytes (k + 1) →
        Covered g place x → Covered (splitBlock g b k) place' x) ∧
      (Coalesced g place F → Coalesced (splitBlock g b k) place' F') := by
  have hhdr := headerSize_lt k
  set c := b + blockBytes k with hc
  have hcb : c ≠ b := by omega
  have hco : place c = .outside := by
    have hleast := blockBytes_succ k ▸ hs.least
    exact h.outside_of_inner (b := b) (by simp [hb]) (by omega) (by omega)
  have hal : blockBytes k ∣ b := (blockBytes_succ k ▸ Nat.dvd_mul_left ..).trans hs.aligned
  have hkm : k ≤ maxOrder := by have := hs.le; omega
  have hcut := h.cut hb hs (update g.isFree c true) fun x hx => Function.update_of_ne hx ..
  rw [← hc] at hcut
  have hsized : Sized (update (update g.size c (blockBytes k - headerSize)) b
      (blockBytes k - headerSize)) c k :=
    sized_half hkm (Nat.dvd_add hal dvd_rfl) (by simp [hcb])
  have hpush := hcut.push (b := c) (k := k) (by simp) hsized (by simp)
  have hself : (splitBlock g b k).size b = blockBytes k - headerSize := Function.update_self ..
  refine ⟨_, _, hpush.congr (fun _ _ _ => rfl) (fun _ _ _ => rfl) rfl rfl rfl rfl, fun x => ?_,
    sized_half hkm hal hself, by omega, fun x hx hcov => ?_, fun hcoal => ?_⟩
  · rcases eq_or_ne x c with rfl | hx
    · simp [hco]
    · simp [hx]
  · have hcutCov : Covered (splitBlock g b k) (update place c .live) x :=
      hcov.cut (by simp [hb]) hx rfl hco
    apply hcutCov.congr (fun y hy => placed_update (by simp) hy) rfl
  · -- the buddy of the upper half is `b`, which is live
    have hcutCo : Coalesced g (update place c .live) F := hcoal.cut (by simp [hb]) hs.aligned hs.le rfl
    refine hcutCo.push (by simp) (fun hk hmem => ?_) rfl
    rw [xor_upper hs.aligned] at hmem
    have hfree := (h.mem k hk.le b).mp hmem
    rw [hb] at hfree
    cases hfree

theorem splitLoop_spec {order cur : ℕ} (h : Blocks g place F) (hb : place b = .live)
    (hs : Sized g.size b cur) (ho : order ≤ cur) :
    ∃ place' F', Blocks (splitLoop g b order cur) place' F' ∧
      (∀ x, place' x = .live ↔ place x = .live) ∧ Sized (splitLoop g b order cur).size b order ∧
      (∀ x, order = cur ∨ g.size b + headerSize = blockBytes cur ∨ x < b + blockBytes cur →
        Covered g place x → Covered (splitLoop g b order cur) place' x) ∧
      (Coalesced g place F → Coalesced (splitLoop g b order cur) place' F') := by
  induction cur generalizing g place F with
  | zero =>
    obtain rfl : order = 0 := by omega
    exact ⟨place, F, h, fun _ => Iff.rfl, hs, fun _ _ hcov => hcov, id⟩
  | succ cur ih =>
    rcases Nat.eq_or_lt_of_le ho with rfl | hlt
    · simp only [splitLoop, lt_irrefl, if_false]
      exact ⟨place, F, h, fun _ => Iff.rfl, hs, fun _ _ hcov => hcov, id⟩
    · obtain ⟨place₁, F₁, h₁, hlive₁, hs₁, hsz₁, hcov₁, hcoal₁⟩ := splitBlock_spec h hb hs
      obtain ⟨place₂, F₂, h₂, hlive₂, hs₂, hcov₂, hcoal₂⟩ := ih h₁ ((hlive₁ b).mpr hb) hs₁ (by omega)
      simp only [splitLoop, hlt, if_true]
      refine ⟨place₂, F₂, h₂, fun x => (hlive₂ x).trans (hlive₁ x), hs₂, fun x hx hcov => ?_,
        fun hcoal => hcoal₂ (hcoal₁ hcoal)⟩
      exact hcov₂ x (Or.inr (Or.inl hsz₁)) (hcov₁ x (hx.resolve_left (by omega)) hcov)

theorem splitLoop_self (g : Heap) (b order : ℕ) : splitLoop g b order order = g := by
  cases order <;> simp [splitLoop]

/-- The order a request is rounded to; the addition of the header wraps. -/
def requestOrder (size : ℕ) : ℕ := getOrder ((size + headerSize) % wordSize)

/-- A malloc fails when the lists from the order of the request on are empty. -/
theorem buddyMalloc_null (h : Blocks g place F)
    (hnull : size = 0 ∨ ∀ j, requestOrder size ≤ j → j ≤ maxOrder → F j = []) :
    buddyMalloc g size = (0, g) := by
  by_cases h0 : size = 0
  · simp [buddyMalloc, h0]
  · obtain ⟨h1, -, h3⟩ := searchLoop_spec g (n := maxOrder + 1) (requestOrder size) (by omega)
    have hover : maxOrder < searchLoop g (maxOrder + 1) (requestOrder size) := by
      by_contra hle
      rw [not_lt] at hle
      have hempty := (hnull.resolve_left h0) _ h1 hle
      exact h3 hle (((h.list _ hle).nil_iff).mpr hempty)
    simp only [requestOrder] at hover
    simp [buddyMalloc, h0, hover]

/-- Otherwise it takes the first block of the first list that has one. -/
theorem buddyMalloc_spec (h : Blocks g place F) (h0 : size ≠ 0)
    (hsome : ∃ j, requestOrder size ≤ j ∧ j ≤ maxOrder ∧ F j ≠ []) :
    ∃ cur b T g' place' F', requestOrder size ≤ cur ∧ cur ≤ maxOrder ∧
      (∀ j, requestOrder size ≤ j → j < cur → F j = []) ∧ F cur = b :: T ∧
      buddyMalloc g size = (b + headerSize, g') ∧ Blocks g' place' F' ∧
      (∀ x, place' x = .live ↔ place x = .live ∨ x = b) ∧ place b ≠ .live ∧
      Sized g'.size b (requestOrder size) ∧ (cur = requestOrder size → g'.size = g.size) ∧
      (∀ x, requestOrder size = cur ∨ g.size b + headerSize = blockBytes cur ∨ x < b + blockBytes cur →
        Covered g place x → Covered g' place' x) ∧
      (Coalesced g place F → Coalesced g' place' F') := by
  obtain ⟨h1, h2, h3⟩ := searchLoop_spec g (n := maxOrder + 1) (requestOrder size) (by omega)
  set cur := searchLoop g (maxOrder + 1) (requestOrder size) with hcur
  have hempty : ∀ j, requestOrder size ≤ j → j < cur → F j = [] := by
    intro j hj hlt
    obtain ⟨hle, hz⟩ := h2 j hj hlt
    exact (h.list j hle).nil_iff.mp hz
  have hle : cur ≤ maxOrder := by
    by_contra hover
    obtain ⟨j, hj, hjm, hne⟩ := hsome
    exact hne (hempty j hj (by omega))
  obtain ⟨T, hF, -⟩ := (h.list cur hle).of_ne (h3 hle)
  set b := g.freeBlocks cur with hb
  have hfree : place b = .free cur := (h.mem cur hle b).mp (by simp [hF])
  obtain ⟨htake, hsized⟩ := h.take hle (A := []) hF
  have hfirst : setLink g cur 0 (g.next b) =
      { g with freeBlocks := update g.freeBlocks cur (g.next b) } := rfl
  simp only [List.getLast?_nil, Option.getD_none, hfirst] at htake
  set g₁ : Heap := { g with freeBlocks := update g.freeBlocks cur (g.next b) } with hg₁
  obtain ⟨place', F', hsplit, hlive, hs', hcov', hcoal'⟩ :=
    splitLoop_spec htake (Function.update_self ..) hsized h1
  set g₂ := splitLoop g₁ b (requestOrder size) cur with hg₂
  have hbl : place' b = .live := (hlive b).mpr (Function.update_self ..)
  let g₃ : Heap := { g₂ with
    isFree := update g₂.isFree b false
    userSize := update g₂.userSize b size
    next := update g₂.next b 0
    currentBlocks := (g₂.currentBlocks + 1) % wordSize
    totalAllocated := (g₂.totalAllocated + size) % wordSize }
  refine ⟨cur, b, T, g₃, place', F', h1, hle, hempty, hF, ?_, hsplit.congr ?_ ?_ rfl rfl rfl rfl,
    ?_, by simp [hfree], hs', ?_, fun x hx hcov => ?_, fun hcoal => ?_⟩
  · have hnot : ¬maxOrder < cur := not_lt.mpr hle
    simp only [requestOrder] at hcur
    simp only [buddyMalloc, h0, ← hcur, hnot, if_false]
    rfl
  · intro x j hx
    apply Function.update_of_ne
    rintro rfl
    simp [hbl] at hx
  · intro x j hx
    apply Function.update_of_ne
    rintro rfl
    simp [hbl] at hx
  · intro x
    rw [hlive]
    rcases eq_or_ne x b with rfl | hx
    · simp
    · simp [hx]
  · intro heq
    show g₂.size = g.size
    rw [hg₂, ← heq, splitLoop_self]
  · have hcov₁ : Covered g₁ (update place b .live) x :=
      hcov.congr (fun y hy => placed_update (by simp) hy) rfl
    exact (hcov' x hx hcov₁).congr (fun _ => id) rfl
  · have htaken : Coalesced g₁ (update place b .live) (update F cur ([] ++ T)) :=
      hcoal.take (by simp [hfree]) hF rfl
    exact (hcoal' htaken).mono (fun _ _ => id) (fun _ => id) rfl

/-! ### Free -/

/-- The walk over a list ends, at the link to `b` if there is one. -/
theorem findLink_spec {L : List ℕ} {cur fuel : ℕ} (h : Chain g.next 0 cur L)
    (hfuel : L.length < fuel) (prev : ℕ) :
    (findLink g b fuel prev cur = some none ∧ b ∉ L) ∨
      ∃ A B, L = A ++ b :: B ∧ findLink g b fuel prev cur = some (some (A.getLast?.getD prev)) := by
  induction L generalizing cur fuel prev with
  | nil =>
    obtain ⟨fuel, rfl⟩ := Nat.exists_eq_succ_of_ne_zero (Nat.ne_of_gt hfuel)
    have hcur : cur = 0 := h
    exact Or.inl ⟨by simp [findLink, hcur], by simp⟩
  | cons x L ih =>
    obtain ⟨fuel, rfl⟩ := Nat.exists_eq_succ_of_ne_zero (Nat.ne_of_gt (Nat.zero_lt_of_lt hfuel))
    obtain ⟨rfl, hx, hL⟩ := h
    rcases eq_or_ne cur b with rfl | hne
    · exact Or.inr ⟨[], L, rfl, by simp [findLink, hx]⟩
    · have hlen : L.length < fuel := by
        simp only [List.length_cons] at hfuel
        omega
      rcases ih hL hlen cur with ⟨hnone, hb⟩ | ⟨A, B, rfl, hsome⟩
      · exact Or.inl ⟨by simp [findLink, hx, hne, hnone], by simp [Ne.symm hne, hb]⟩
      · refine Or.inr ⟨cur :: A, B, rfl, ?_⟩
        simp [findLink, hx, hne, hsome, List.getLast?_cons]

/-- Merging `b` with its buddy, once that is found on the list of their order. -/
theorem Blocks.merge (h : Blocks g place F) (hb : place b = .live) (hs : Sized g.size b k)
    (hk : k < maxOrder) (hf : g.isFree b = true) {A B : List ℕ}
    (hF : F k = A ++ (b ^^^ blockBytes k) :: B) {c lo : ℕ} (hc : c = b ^^^ blockBytes k)
    (hlo : lo = if c < b then c else b) :
    ∃ place', Blocks { setLink g k (A.getLast?.getD 0) (g.next c) with
        size := update g.size lo
          ((2 * (g.size lo + headerSize) + wordSize - headerSize) % wordSize) }
        place' (update F k (A ++ B)) ∧
      place' lo = .live ∧ Sized (update g.size lo
          ((2 * (g.size lo + headerSize) + wordSize - headerSize) % wordSize)) lo (k + 1) ∧
      g.isFree lo = true ∧ (∀ x, place' x = .live ∧ x ≠ lo ↔ place x = .live ∧ x ≠ b) ∧
      (∀ x, Covered g place x → Covered { setLink g k (A.getLast?.getD 0) (g.next c) with
        size := update g.size lo
          ((2 * (g.size lo + headerSize) + wordSize - headerSize) % wordSize) } place' x) ∧
      (Coalesced g place F → Coalesced { setLink g k (A.getLast?.getD 0) (g.next c) with
        size := update g.size lo
          ((2 * (g.size lo + headerSize) + wordSize - headerSize) % wordSize) } place'
        (update F k (A ++ B))) := by
  rw [← hc] at hF
  have hcfree : place c = .free k := (h.mem k hk.le c).mp (by simp [hF])
  have hcmark := h.free_mark c k hcfree
  obtain ⟨htake, hcs⟩ := h.take hk.le hF
  have hcb : c ≠ b := by rintro rfl; simp [hb] at hcfree
  have hbl : update place c Place.live b = .live := by simp [Ne.symm hcb, hb]
  have hcl : update place c Place.live c = .live := by simp
  have hbytes := minBlockSize_le k
  have hpos : minBlockSize = 64 := rfl
  have hsize : (2 * (g.size lo + headerSize) + wordSize - headerSize) % wordSize =
      blockBytes (k + 1) - headerSize := by
    have hlos : g.size lo + headerSize = blockBytes k := by
      rw [hlo]
      split
      · exact hcs.eq hk
      · exact hs.eq hk
    have hle := blockBytes_mono (show k + 1 ≤ maxOrder from hk)
    rw [blockBytes_maxOrder] at hle
    rw [hlos, ← blockBytes_succ]
    have := headerSize_lt (k + 1)
    simp only [wordSize] at *
    omega
  rw [hsize]
  -- the two halves, the lower one first
  obtain ⟨hi, hhi, hloal, hlol, hhil, hlos, hhis, hlom, hpair⟩ : ∃ hi, hi = lo + blockBytes k ∧
      blockBytes (k + 1) ∣ lo ∧ update place c Place.live lo = .live ∧
      update place c Place.live hi = .live ∧ Sized g.size lo k ∧ Sized g.size hi k ∧
      g.isFree lo = true ∧ ((lo = b ∧ hi = c) ∨ (lo = c ∧ hi = b)) := by
    rcases xor_blockBytes hs.aligned with ⟨hx, hal⟩ | ⟨hx, hal⟩
    · have hlt : ¬c < b := by omega
      rw [if_neg hlt] at hlo
      rw [hlo]
      exact ⟨c, by omega, hal, hbl, hcl, hs, hcs, hf, Or.inl ⟨rfl, rfl⟩⟩
    · rw [← hc] at hx hal
      have hlt : c < b := by omega
      rw [if_pos hlt] at hlo
      rw [hlo]
      exact ⟨b, hx, hal, hcl, hbl, hcs, hs, hcmark, Or.inr ⟨rfl, rfl⟩⟩
  have hfuse := htake.fuse (b := lo) (k := k) hlol (hhi ▸ hhil) (by simpa using hlos)
    (by simpa [← hhi] using hhis) hk hloal
  rw [← hhi, setLink_size] at hfuse
  have hlohi : lo ≠ hi := by omega
  have hlotop : Sized (update g.size lo (blockBytes (k + 1) - headerSize)) lo (k + 1) :=
    sized_half (show k + 1 ≤ maxOrder from hk) hloal (Function.update_self ..)
  refine ⟨_, hfuse, by rw [Function.update_of_ne hlohi]; exact hlol, hlotop, hlom, fun x => ?_,
    fun x hcov => ?_, fun hcoal => ?_⟩
  · rcases eq_or_ne x c with rfl | hxc
    · rcases hpair with ⟨rfl, rfl⟩ | ⟨rfl, rfl⟩ <;> simp [hcfree, hlohi, Ne.symm hlohi]
    rcases eq_or_ne x b with rfl | hxb
    · rcases hpair with ⟨rfl, rfl⟩ | ⟨rfl, rfl⟩ <;> simp [hlohi, Ne.symm hlohi]
    · have hxlo : x ≠ lo := by rcases hpair with ⟨rfl, rfl⟩ | ⟨rfl, rfl⟩ <;> assumption
      have hxhi : x ≠ hi := by rcases hpair with ⟨rfl, rfl⟩ | ⟨rfl, rfl⟩ <;> assumption
      simp [hxc, hxb, hxlo, hxhi]
  · have hcov₁ : Covered g (update place c .live) x :=
      hcov.congr (fun y hy => placed_update (by simp) hy) rfl
    have hfuse' : Covered { g with size := update g.size lo (blockBytes (k + 1) - headerSize) }
        (update (update place c .live) (lo + blockBytes k) .outside) x :=
      hcov₁.fuse (by simp [hlol]) (hlos.eq hk) (by rw [← hhi]; exact hhis.eq hk) rfl
    rw [← hhi] at hfuse'
    exact hfuse'.congr (fun _ => id) rfl
  · have htaken : Coalesced g (update place c .live) (update F k (A ++ B)) :=
      hcoal.take (by simp [hcfree]) hF rfl
    refine htaken.mono (fun _ _ => id) (fun x hx => ?_) (setLink_memoryStart ..)
    rcases eq_or_ne x hi with rfl | hxhi
    · simp at hx
    · rwa [Function.update_of_ne hxhi] at hx

/-- One turn: the loop goes on exactly when the buddy is on the list of its order. -/
theorem mergeLoop_stop (h : Blocks g place F) (hb : place b = .live) (hstop : k < maxOrder → b ^^^ blockBytes k ∉ F k)
    (n : ℕ) :
    mergeLoop (n + 1) g b k = some (g, b, k) := by
  by_cases hk : k < maxOrder
  · have hbytes : 2 ^ k * minBlockSize = blockBytes k := rfl
    by_cases hrange : b ^^^ blockBytes k < g.memoryStart ∨
        g.memoryStart + g.totalSize ≤ b ^^^ blockBytes k
    · simp [mergeLoop, hk, hbytes, hrange]
    by_cases hbuddy : g.isFree (b ^^^ blockBytes k) = false ∨
        g.size (b ^^^ blockBytes k) ≠ g.size b
    · simp only [mergeLoop, hk, hbytes, hrange, hbuddy, if_true, if_false]
    rcases findLink_spec (b := b ^^^ blockBytes k) (h.list k hk.le)
        (h.length_lt hk.le (b := b) (by simp [hb])) 0 with
      ⟨hnone, -⟩ | ⟨A, B, hF, -⟩
    · simp only [mergeLoop, hk, hbytes, hrange, hbuddy, hnone, if_true, if_false]
    · exact absurd (by simp [hF]) (hstop hk)
  · simp [mergeLoop, hk]

theorem mergeLoop_succ (h : Blocks g place F) (hb : place b = .live) (hs : Sized g.size b k)
    (hk : k < maxOrder) (hmem : b ^^^ blockBytes k ∈ F k) (n : ℕ) :
    ∃ A B, F k = A ++ (b ^^^ blockBytes k) :: B ∧
      mergeLoop (n + 1) g b k =
        let c := b ^^^ blockBytes k
        let lo := if c < b then c else b
        mergeLoop n { setLink g k (A.getLast?.getD 0) (g.next c) with
          size := update g.size lo
            ((2 * (g.size lo + headerSize) + wordSize - headerSize) % wordSize) } lo (k + 1) := by
  have hfree := (h.mem k hk.le _).mp hmem
  have hin := h.inside (b ^^^ blockBytes k) (by simp [hfree])
  have hpos : headerSize = 32 := rfl
  have hrange : ¬(b ^^^ blockBytes k < g.memoryStart ∨
      g.memoryStart + g.totalSize ≤ b ^^^ blockBytes k) := by omega
  have hmark := h.free_mark _ k hfree
  have hbsize := hs.eq hk
  have hcsize := (h.free_sized _ k hfree).eq hk
  have hbuddy : ¬(g.isFree (b ^^^ blockBytes k) = false ∨ g.size (b ^^^ blockBytes k) ≠ g.size b) := by
    rw [hmark, not_or, not_not]
    exact ⟨by simp, by omega⟩
  rcases findLink_spec (b := b ^^^ blockBytes k) (h.list k hk.le)
      (h.length_lt hk.le (b := b) (by simp [hb])) 0 with
    ⟨-, hnot⟩ | ⟨A, B, hF, hsome⟩
  · exact absurd hmem hnot
  · refine ⟨A, B, hF, ?_⟩
    have hbytes : 2 ^ k * minBlockSize = blockBytes k := rfl
    simp only [mergeLoop, hk, hbytes, hrange, hbuddy, hsome, if_true, if_false, setLink_size]

theorem mergeLoop_spec (h : Blocks g place F) (hb : place b = .live) (hs : Sized g.size b k)
    (hf : g.isFree b = true) (hn : maxOrder ≤ k + n) :
    ∃ g' c j place' F', mergeLoop n g b k = some (g', c, j) ∧ Blocks g' place' F' ∧
      place' c = .live ∧ Sized g'.size c j ∧ g'.isFree c = true ∧
      (∀ x, place' x = .live ∧ x ≠ c ↔ place x = .live ∧ x ≠ b) ∧
      (j < maxOrder → c ^^^ blockBytes j ∉ F' j) ∧ (∀ x, Covered g place x → Covered g' place' x) ∧
      (Coalesced g place F → Coalesced g' place' F') := by
  induction n generalizing g b k place F with
  | zero =>
    exact ⟨g, b, k, place, F, rfl, h, hb, hs, hf, fun _ => Iff.rfl, fun hk => absurd hk (not_lt.mpr hn),
      fun _ => id, id⟩
  | succ n ih =>
    by_cases hmem : k < maxOrder ∧ b ^^^ blockBytes k ∈ F k
    · obtain ⟨hk, hmem⟩ := hmem
      obtain ⟨A, B, hF, hturn⟩ := mergeLoop_succ h hb hs hk hmem n
      obtain ⟨place', hm, hlo, hlos, hlof, hlive, hcov, hcoal⟩ := h.merge hb hs hk hf hF rfl rfl
      obtain ⟨g', c, j, place'', F', hrun, hB, hc, hcs, hcf, hlive', hlast, hcov', hcoal'⟩ :=
        ih hm hlo hlos (by simpa using hlof) (by omega)
      exact ⟨g', c, j, place'', F', hturn.trans hrun, hB, hc, hcs, hcf,
        fun x => (hlive' x).trans (hlive x), hlast, fun x hx => hcov' x (hcov x hx),
        fun hx => hcoal' (hcoal hx)⟩
    · rw [not_and] at hmem
      exact ⟨g, b, k, place, F, mergeLoop_stop h hb hmem n, h, hb, hs, hf, fun _ => Iff.rfl, hmem,
        fun _ => id, id⟩

/-- A free returns and takes the block back. -/
theorem buddyFree_spec (h : Blocks g place F) (hb : place b = .live) :
    ∃ freed g' place' F', buddyFree g (b + headerSize) = some (freed, g') ∧ Blocks g' place' F' ∧
      (∀ x, place' x = .live ↔ place x = .live ∧ x ≠ b) ∧
      (∀ x, Covered g place x → Covered g' place' x) ∧ (Coalesced g place F → Coalesced g' place' F') := by
  obtain ⟨k, hs⟩ := h.live_sized b hb
  have hin := h.inside b (by simp [hb])
  have hsmall := h.small
  have hstart := h.start_pos
  have horder : getOrder ((g.size b + headerSize) % wordSize) = k := by
    rw [Nat.mod_eq_of_lt (by omega)]
    exact hs.getOrder
  let g₁ : Heap := { g with
    isFree := update g.isFree b true
    userSize := update g.userSize b 0
    totalAllocated := if g.userSize b ≤ g.totalAllocated then g.totalAllocated - g.userSize b
      else g.totalAllocated
    totalFreed := (g.totalFreed + g.userSize b) % wordSize
    currentBlocks := (g.currentBlocks + (wordSize - 1)) % wordSize }
  have hB₁ : Blocks g₁ place F := by
    refine h.congr (fun _ _ _ => rfl) (fun x j hx => ?_) rfl rfl rfl rfl
    apply Function.update_of_ne
    rintro rfl
    simp [hb] at hx
  obtain ⟨g₂, c, j, place', F', hrun, hB₂, hc, hcs, hcf, hlive, hlast, hcov', hcoal'⟩ :=
    mergeLoop_spec hB₁ hb hs (Function.update_self ..) (Nat.le_add_left maxOrder k)
  have hpush := hB₂.push hc hcs hcf
  refine ⟨g.userSize b, _, _, _, ?_, hpush, fun x => ?_, fun x hcov => ?_, fun hcoal => ?_⟩
  · have hne : b + headerSize ≠ 0 := by omega
    have hmerge : mergeLoop maxOrder g₁ b (getOrder ((g₁.size b + headerSize) % wordSize)) =
        some (g₂, c, j) := by
      rw [show getOrder ((g₁.size b + headerSize) % wordSize) = k from horder]
      exact hrun
    by_cases hacc : g.userSize b ≤ g.totalAllocated
    · simp only [buddyFree, hne, if_false, Nat.add_sub_cancel, hacc, if_true]
      simp only [g₁, hacc, if_true] at hmerge
      rw [hmerge]
    · simp only [buddyFree, hne, if_false, Nat.add_sub_cancel, hacc]
      simp only [g₁, hacc, if_false] at hmerge
      rw [hmerge]
  · rw [← hlive]
    rcases eq_or_ne x c with rfl | hx
    · simp
    · simp [hx]
  · have hcov₂ := hcov' x (hcov.congr (fun _ => id) rfl)
    exact hcov₂.congr (fun y hy => placed_update (by simp) hy) rfl
  · have hcoal₂ := hcoal' (hcoal.mono (fun _ _ => id) (fun _ => id) rfl)
    exact hcoal₂.push (by simp [hc]) hlast rfl

/-! ### The region and the counters -/

/-- The region and the counters are the same. -/
structure SameStatics (g g' : Heap) : Prop where
  memoryStart : g'.memoryStart = g.memoryStart
  totalSize : g'.totalSize = g.totalSize
  currentBlocks : g'.currentBlocks = g.currentBlocks
  totalAllocated : g'.totalAllocated = g.totalAllocated
  totalFreed : g'.totalFreed = g.totalFreed

theorem SameStatics.refl (g : Heap) : SameStatics g g := ⟨rfl, rfl, rfl, rfl, rfl⟩

theorem splitLoop_statics (g : Heap) (b order cur : ℕ) : SameStatics g (splitLoop g b order cur) := by
  induction cur generalizing g with
  | zero => exact .refl g
  | succ cur ih =>
    unfold splitLoop
    split
    · have hrest := ih (splitBlock g b cur)
      exact ⟨hrest.memoryStart, hrest.totalSize, hrest.currentBlocks, hrest.totalAllocated, hrest.totalFreed⟩
    · exact .refl g

theorem setLink_statics (g : Heap) (order prev link : ℕ) : SameStatics g (setLink g order prev link) := by
  unfold setLink
  split
  · exact ⟨rfl, rfl, rfl, rfl, rfl⟩
  · exact ⟨rfl, rfl, rfl, rfl, rfl⟩

theorem mergeLoop_statics {c j : ℕ} (h : mergeLoop n g b k = some (g', c, j)) : SameStatics g g' := by
  induction n generalizing g b k with
  | zero =>
    obtain ⟨rfl, -⟩ : g = g' ∧ _ := by simpa [mergeLoop] using h
    exact .refl g
  | succ n ih =>
    have hstop (h : some (g, b, k) = some (g', c, j)) : SameStatics g g' := by
      obtain ⟨rfl, -⟩ : g = g' ∧ _ := by simpa using h
      exact .refl g
    unfold mergeLoop at h
    dsimp only at h
    split at h
    · split at h
      · exact hstop h
      · split at h
        · exact hstop h
        · split at h
          · cases h
          · exact hstop h
          · rename_i prev _
            have hlink := setLink_statics g k prev (g.next (b ^^^ (2 ^ k * minBlockSize)))
            have hrest := ih h
            exact ⟨hrest.memoryStart.trans hlink.memoryStart, hrest.totalSize.trans hlink.totalSize,
              hrest.currentBlocks.trans hlink.currentBlocks, hrest.totalAllocated.trans hlink.totalAllocated,
              hrest.totalFreed.trans hlink.totalFreed⟩
    · exact hstop h

theorem buddyMalloc_region (g : Heap) (n : ℕ) :
    (buddyMalloc g n).2.memoryStart = g.memoryStart ∧ (buddyMalloc g n).2.totalSize = g.totalSize := by
  unfold buddyMalloc
  dsimp only
  split
  · exact ⟨rfl, rfl⟩
  · split
    · exact ⟨rfl, rfl⟩
    · have hsame := splitLoop_statics { g with
        freeBlocks := update g.freeBlocks (searchLoop g (maxOrder + 1) (getOrder ((n + headerSize) % wordSize)))
          (g.next (g.freeBlocks (searchLoop g (maxOrder + 1) (getOrder ((n + headerSize) % wordSize))))) }
      exact ⟨(hsame _ _ _).memoryStart, (hsame _ _ _).totalSize⟩

/-- What a free of a pointer returns, and what it does to the counters. -/
theorem buddyFree_counters {ptr freed : ℕ} (hptr : ptr ≠ 0) (h : buddyFree g ptr = some (freed, g')) :
    freed = g.userSize (ptr - headerSize) ∧ g'.memoryStart = g.memoryStart ∧ g'.totalSize = g.totalSize ∧
      g'.currentBlocks = (g.currentBlocks + (wordSize - 1)) % wordSize ∧
      g'.totalAllocated = (if freed ≤ g.totalAllocated then g.totalAllocated - freed else g.totalAllocated) ∧
      g'.totalFreed = (g.totalFreed + freed) % wordSize := by
  by_cases hacc : g.userSize (ptr - headerSize) ≤ g.totalAllocated
  all_goals
    simp only [buddyFree, hptr, hacc, if_false, if_true] at h
    split at h
    · cases h
    · rename_i hm
      obtain ⟨rfl, rfl⟩ := Prod.mk.inj (Option.some.inj h)
      have hsame := mergeLoop_statics hm
      refine ⟨rfl, hsame.memoryStart, hsame.totalSize, hsame.currentBlocks, ?_, hsame.totalFreed⟩
      simp only [hacc, if_true, if_false]
      exact hsame.totalAllocated

theorem buddyFree_region {ptr freed : ℕ} (h : buddyFree g ptr = some (freed, g')) :
    g'.memoryStart = g.memoryStart ∧ g'.totalSize = g.totalSize := by
  by_cases hptr : ptr = 0
  · obtain ⟨-, rfl⟩ : 0 = freed ∧ g = g' := by simpa [buddyFree, hptr] using h
    exact ⟨rfl, rfl⟩
  · obtain ⟨-, hstart, hsize, -⟩ := buddyFree_counters hptr h
    exact ⟨hstart, hsize⟩

end BareKernel.Buddy

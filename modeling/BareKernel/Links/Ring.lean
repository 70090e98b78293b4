import Mathlib.Data.List.Chain
import Mathlib.Data.List.Nodup
import Mathlib.Data.List.Perm.Subperm
import Mathlib.Logic.Function.Basic

/-! Circular linked lists in a memory of pointers. A ring lists the nodes of a
circular chain once around, from a chosen head; the link relation says what it
means for a node to point at its successor (one pointer, or one each way). The
edits a program makes, unlinking a node and linking one in, are local in the
list, wherever the head is. -/

namespace BareKernel.Links

variable {α : Type*} {R R' : α → α → Prop} {A B L : List α} {a b n x y : α}

/-- Every node is linked to the next one, and the last one to the first. -/
def Ring (R : α → α → Prop) (L : List α) : Prop :=
  L.IsChain R ∧ ∀ x ∈ L.getLast?, ∀ y ∈ L.head?, R x y

/-- `x` points forward at `y` and `y` points back at `x`. -/
def Both (fwd bwd : α → α) (x y : α) : Prop := fwd x = y ∧ bwd y = x

/-- `x` points forward at `y`. -/
def Fwd (fwd : α → α) (x y : α) : Prop := fwd x = y

theorem ring_nil : Ring R [] := ⟨.nil, by simp⟩

theorem ring_singleton : Ring R [a] ↔ R a a := by simp [Ring]

/-- A ring may be read from any of its nodes. -/
theorem ring_rotate : Ring R (A ++ B) ↔ Ring R (B ++ A) := by
  rcases A.eq_nil_or_concat with rfl | ⟨A, a, rfl⟩
  · simp
  rcases B.eq_nil_or_concat with rfl | ⟨B, b, rfl⟩
  · simp
  simp only [Ring, List.isChain_append, List.getLast?_append, List.head?_append, List.concat_eq_append]
  simp
  tauto

/-- Two rings with the same links on their nodes. -/
theorem Ring.congr (h : Ring R L) (hag : ∀ x ∈ L, ∀ y ∈ L, R x y → R' x y) : Ring R' L := by
  refine ⟨h.1.imp_of_mem_imp fun x y hx hy => hag x hx y hy, fun x hx y hy => ?_⟩
  exact hag x (List.mem_of_getLast? hx) y (List.mem_of_head? hy) (h.2 x hx y hy)

theorem Ring.exists_prev (h : Ring R L) (hx : x ∈ L) : ∃ p ∈ L, R p x := by
  obtain ⟨A, B, rfl⟩ := List.append_of_mem hx
  rw [ring_rotate, List.cons_append] at h
  have hl := h.2
  simp only [List.head?_cons, Option.mem_some_iff, forall_eq'] at hl
  obtain ⟨p, hp⟩ : ∃ p, (x :: (B ++ A)).getLast? = some p := by
    rw [← Option.isSome_iff_exists]; simp
  have hm := List.mem_of_getLast? hp
  exact ⟨p, by simp at hm ⊢; tauto, hl p hp⟩

theorem Ring.exists_next (h : Ring R L) (hx : x ∈ L) : ∃ y ∈ L, R x y := by
  obtain ⟨A, B, rfl⟩ := List.append_of_mem hx
  rw [List.append_cons, ring_rotate, ← List.append_assoc] at h
  have hl := h.2 x (by simp)
  obtain ⟨y, hy⟩ : ∃ y, (B ++ A ++ [x]).head? = some y := by
    rw [← Option.isSome_iff_exists]; simp
  have hm := List.mem_of_head? hy
  exact ⟨y, by simp at hm ⊢; tauto, hl y hy⟩

theorem not_mem_of_nodup (h : (A ++ b :: B).Nodup) : b ∉ A ++ B :=
  (List.nodup_cons.mp (List.perm_middle.nodup_iff.mp h)).1

theorem erase_of_nodup [BEq α] [LawfulBEq α] (h : (A ++ b :: B).Nodup) :
    (A ++ b :: B).erase b = A ++ B := by
  have hb := not_mem_of_nodup h
  rw [List.erase_append_right _ (by simp at hb; tauto), List.erase_cons_head]

/-- From one node on, two walks along the links that come back to `a` are the same. -/
theorem chain_unique {fwd : α → α} (hA : (x :: A).IsChain (Fwd fwd)) (hB : (x :: B).IsChain (Fwd fwd))
    (hlastA : ∀ y ∈ (x :: A).getLast?, fwd y = a) (hlastB : ∀ y ∈ (x :: B).getLast?, fwd y = a)
    (haA : a ∉ A) (haB : a ∉ B) : A = B := by
  induction A generalizing x B with
  | nil =>
    cases B with
    | nil => rfl
    | cons b B =>
      have hx : fwd x = a := hlastA x rfl
      have hb : fwd x = b := (List.isChain_cons_cons.mp hB).1
      exact absurd (List.mem_cons_self ..) (hx.symm.trans hb ▸ haB)
  | cons c A ih =>
    obtain ⟨hc, hA⟩ := List.isChain_cons_cons.mp hA
    cases B with
    | nil =>
      have hx : fwd x = a := hlastB x rfl
      exact absurd (List.mem_cons_self ..) (hx.symm.trans hc ▸ haA)
    | cons b B =>
      obtain ⟨hb, hB⟩ := List.isChain_cons_cons.mp hB
      obtain rfl : c = b := hc.symm.trans hb
      rw [List.getLast?_cons_cons] at hlastA hlastB
      rw [ih hA hB hlastA hlastB (fun h => haA (List.mem_cons_of_mem _ h)) fun h => haB (List.mem_cons_of_mem _ h)]

/-- A ring without repetitions is given by its links and its head. -/
theorem Ring.unique {fwd : α → α} (hA : Ring (Fwd fwd) (a :: A)) (hB : Ring (Fwd fwd) (a :: B))
    (hndA : (a :: A).Nodup) (hndB : (a :: B).Nodup) : A = B :=
  chain_unique hA.1 hB.1 (fun y hy => hA.2 y hy a rfl) (fun y hy => hB.2 y hy a rfl)
    (List.nodup_cons.mp hndA).1 (List.nodup_cons.mp hndB).1

/-! ### The two edits -/

/-- Unlinking `b`: its predecessor is linked to its successor. -/
theorem Ring.unlink (h : Ring R (A ++ b :: B)) (hb : b ∉ A ++ B)
    (hseam : ∀ x ∈ A ++ B, ∀ y ∈ A ++ B, R x b → R b y → R' x y)
    (hag : ∀ x ∈ A ++ B, ∀ y ∈ A ++ B, x ≠ b → y ≠ b → R x y → R' x y) : Ring R' (A ++ B) := by
  have hm : ∀ z ∈ B ++ A, z ∈ A ++ B ∧ z ≠ b := by
    intro z hz
    have hz' : z ∈ A ++ B := by simp at hz ⊢; tauto
    exact ⟨hz', fun hzb => hb (hzb ▸ hz')⟩
  rw [ring_rotate] at h ⊢
  rw [List.cons_append] at h
  generalize B ++ A = L at h hm
  obtain ⟨hc, hl⟩ := h
  refine ⟨hc.tail.imp_of_mem_imp fun x y hx hy =>
    hag x (hm x hx).1 y (hm y hy).1 (hm x hx).2 (hm y hy).2, fun x hx y hy => ?_⟩
  have hxb : R x b := by
    rcases L with _ | ⟨c, L⟩
    · simp at hx
    · exact hl x (by simpa using hx) b (by simp)
  have hby : R b y := by
    rcases L with _ | ⟨c, L⟩
    · simp at hy
    · obtain rfl : c = y := by simpa using hy
      exact (List.isChain_cons_cons.mp hc).1
  exact hseam x (hm x (List.mem_of_getLast? hx)).1 y (hm y (List.mem_of_head? hy)).1 hxb hby

/-- Linking `n` in behind `a`. -/
theorem Ring.link (h : Ring R (A ++ a :: B)) (hnd : (A ++ a :: B).Nodup)
    (hn : R' a n) (hseam : ∀ y, R a y → R' n y)
    (hag : ∀ x ∈ A ++ a :: B, ∀ y ∈ A ++ a :: B, x ≠ a → R x y → R' x y) :
    Ring R' (A ++ a :: n :: B) := by
  rw [List.append_cons, ring_rotate] at h ⊢
  have hag' : ∀ x ∈ B ++ A, ∀ y ∈ B ++ A ++ [a], R x y → R' x y := by
    intro x hx y hy
    refine hag x (by simp at hx ⊢; tauto) y (by simp at hy ⊢; tauto) ?_
    rintro rfl
    simp [List.nodup_append] at hnd hx
    grind
  rw [← List.append_assoc] at h
  rw [List.cons_append, ← List.append_assoc]
  generalize B ++ A = L at h hag'
  obtain ⟨hc, hl⟩ := h
  rw [List.isChain_append] at hc
  have hLa : ∀ x ∈ L.getLast?, R' x a := fun x hx =>
    hag' x (List.mem_of_getLast? hx) a (by simp) (hc.2.2 x hx a (by simp))
  have hL : L.IsChain R' := hc.1.imp_of_mem_imp fun x y hx hy => hag' x hx y (by simp [hy])
  have haL : ∀ y ∈ (L ++ [a]).head?, R' n y := fun y hy => hseam y (hl a (by simp) y hy)
  refine ⟨?_, by simpa [List.getLast?_cons] using hn⟩
  rw [List.isChain_cons, List.isChain_append]
  exact ⟨haL, hL, by simp, fun x hx y hy => by
    obtain rfl : a = y := by simpa using hy
    exact hLa x hx⟩

/-- Linking `n` in before the head; `a` is the last node. -/
theorem Ring.link_head (h : Ring R (A ++ [a])) (hnd : (A ++ [a]).Nodup)
    (hn : R' a n) (hseam : ∀ y, R a y → R' n y)
    (hag : ∀ x ∈ A ++ [a], ∀ y ∈ A ++ [a], x ≠ a → R x y → R' x y) :
    Ring R' (n :: (A ++ [a])) := by
  have hr := Ring.link h hnd hn hseam hag
  rw [List.append_cons, ring_rotate] at hr
  simpa using hr

/-! ### Doubly linked rings -/

variable {fwd bwd : α → α}

theorem Ring.fwd_mem (h : Ring (Both fwd bwd) L) (hx : x ∈ L) : fwd x ∈ L ∧ bwd (fwd x) = x := by
  obtain ⟨y, hy, rfl, hb⟩ := h.exists_next hx
  exact ⟨hy, hb⟩

theorem Ring.fwd_mid (h : Ring (Fwd fwd) (A ++ b :: x :: B)) : fwd b = x := by
  have hc := h.1
  rw [List.isChain_append_cons_cons] at hc
  exact hc.2.1

/-- The last node points at the head. -/
theorem Ring.fwd_last (h : Ring (Fwd fwd) (A ++ [b])) (hx : (A ++ [b]).head? = some x) :
    fwd b = x :=
  h.2 b (by simp) x hx

/-- The nodes of a ring have different successors. -/
theorem Ring.fwd_inj [DecidableEq α] (h : Ring (Fwd fwd) L) (hnd : L.Nodup) (hx : x ∈ L) (hy : y ∈ L)
    (hxy : fwd x = fwd y) : x = y := by
  have hsub : L ⊆ L.map fwd := by
    intro z hz
    obtain ⟨p, hp, hpz⟩ := h.exists_prev hz
    exact List.mem_map.mpr ⟨p, hp, hpz⟩
  have hperm := (List.subperm_of_subset hnd hsub).perm_of_length_le (by simp)
  exact List.inj_on_of_nodup_map (hperm.nodup_iff.mp hnd) hx hy hxy

/-- Only the node of a ring of one points at itself. -/
theorem Ring.eq_singleton (h : Ring (Fwd fwd) L) (hnd : L.Nodup) (hx : x ∈ L) (hxx : fwd x = x) :
    L = [x] := by
  obtain ⟨A, B, rfl⟩ := List.append_of_mem hx
  have hnot := not_mem_of_nodup hnd
  rw [ring_rotate, List.cons_append] at h
  have hBA : B ++ A = [] := by
    rcases hc : B ++ A with _ | ⟨c, T⟩
    · rfl
    · rw [hc] at h
      have hxc : x = c := hxx.symm.trans (List.isChain_cons_cons.mp h.1).1
      have hmem : c ∈ B ++ A := by simp [hc]
      exact absurd (hxc ▸ hmem) (by simp at hnot ⊢; tauto)
  obtain ⟨rfl, rfl⟩ := List.append_eq_nil_iff.mp hBA
  rfl

theorem Ring.toFwd (h : Ring (Both fwd bwd) L) : Ring (Fwd fwd) L :=
  h.congr fun _ _ _ _ hxy => hxy.1

theorem Ring.bwd_mem (h : Ring (Both fwd bwd) L) (hx : x ∈ L) : bwd x ∈ L ∧ fwd (bwd x) = x := by
  obtain ⟨y, hy, hf, rfl⟩ := h.exists_prev hx
  exact ⟨hy, hf⟩

/-- A set that contains a node of a ring, and with each node the next one, contains the ring. -/
theorem Ring.subset_of_closed {fwd : α → α} {S : Set α} (h : Ring (Fwd fwd) L) (hx : x ∈ L) (hxS : x ∈ S)
    (hclosed : ∀ a ∈ S, fwd a ∈ S) : ∀ y ∈ L, y ∈ S := by
  obtain ⟨A, B, rfl⟩ := List.append_of_mem hx
  rw [ring_rotate, List.cons_append] at h
  have hall := h.1.induction (fun a => a ∈ S) _ (fun a b hab ha => by
    rw [← show fwd a = b from hab]
    exact hclosed a ha) fun _ => hxS
  intro y hy
  refine hall y ?_
  simp only [List.mem_append, List.mem_cons] at hy ⊢
  tauto

end BareKernel.Links

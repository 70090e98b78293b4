import Mathlib.Data.List.Rotate
import Mathlib.Data.List.Nodup

/-! Turns in a circular order. The order is read from the entry that had the last
turn on: the second entry has the next one, and then the order is read from it. An
entry may leave; when the first one does, the entry behind it is the first. -/

namespace BareKernel.Links

variable {α : Type*} {L N M T : List α} {p q x y : α}

/-- A list and the same circular order read from another entry. -/
theorem isRotated_iff_append : L.IsRotated N ↔ ∃ A B, L = A ++ B ∧ N = B ++ A := by
  constructor
  · rintro ⟨n, rfl⟩
    refine ⟨L.take (n % L.length), L.drop (n % L.length), (List.take_append_drop ..).symm, ?_⟩
    exact List.rotate_eq_drop_append_take_mod
  · rintro ⟨A, B, rfl, rfl⟩
    exact List.isRotated_append

theorem isRotated_filter (h : L.IsRotated N) (f : α → Bool) : (L.filter f).IsRotated (N.filter f) := by
  obtain ⟨A, B, rfl, rfl⟩ := isRotated_iff_append.mp h
  rw [List.filter_append, List.filter_append]
  exact List.isRotated_append

/-- A new last entry, seen from another entry. -/
theorem isRotated_insert (h : L.IsRotated N) (x : α) :
    ∃ A B, N = A ++ B ∧ (A = [] → B = []) ∧ (L ++ [x]).IsRotated (A ++ x :: B) := by
  obtain ⟨B, A, rfl, rfl⟩ := isRotated_iff_append.mp h
  rcases eq_or_ne A [] with rfl | hA
  · exact ⟨B, [], by simp, fun _ => rfl, by simp [List.IsRotated.refl]⟩
  · refine ⟨A, B, rfl, fun he => absurd he hA, ?_⟩
    have hrot : (B ++ (A ++ [x])).IsRotated ((A ++ [x]) ++ B) := List.isRotated_append
    simpa using hrot

theorem filter_ne_insert [DecidableEq α] {A B : List α} (h : x ∉ A ++ B) :
    (A ++ x :: B).filter (fun z => z ≠ x) = A ++ B := by
  rw [List.filter_append, List.filter_cons_of_neg (by simp), ← List.filter_append, List.filter_eq_self]
  intro z hz
  have hne : z ≠ x := fun he => h (he ▸ hz)
  simpa using hne

theorem filter_ne_head [DecidableEq α] (h : (x :: T).Nodup) : (x :: T).filter (fun z => z ≠ x) = T := by
  rw [List.nodup_cons] at h
  rw [List.filter_cons_of_neg (by simp), List.filter_eq_self]
  intro z hz
  have hne : z ≠ x := fun he => h.1 (he ▸ hz)
  simpa using hne

/-- `q` has a turn before `p` has its next one. -/
def TurnBefore (q p : α) : List α → Prop
  | [] => False
  | _ :: T => q ∈ T ∧ (p ∈ T → [q, p].Sublist T)

theorem TurnBefore.start (hq : q ∈ T) (hp : p ∉ T) : TurnBefore q p (p :: T) :=
  ⟨hq, fun hm => absurd hm hp⟩

/-- So the next turn is not that of `p`, and if it is not that of `q` either, the order
is kept. -/
theorem TurnBefore.next (h : TurnBefore q p (x :: T)) (hnd : (x :: T).Nodup) (hT : T = y :: M)
    (hy : y ≠ q) : y ≠ p ∧ TurnBefore q p (y :: (M ++ [x])) := by
  subst hT
  obtain ⟨hq, hqp'⟩ := h
  obtain ⟨hx, hnd⟩ := List.nodup_cons.mp hnd
  have hsub : p ∈ y :: M → [q, p].Sublist M := fun hp => (List.sublist_cons_iff.mp (hqp' hp)).resolve_right
    fun ⟨r, hr, _⟩ => hy (List.cons.inj hr).1.symm
  have hqM : q ∈ M := (List.mem_cons.mp hq).resolve_left hy.symm
  have hyp : y ≠ p := by
    rintro rfl
    have hpM : y ∈ M := (hsub (List.mem_cons_self ..)).subset (by simp)
    exact (List.nodup_cons.mp hnd).1 hpM
  refine ⟨hyp, List.mem_append_left _ hqM, fun hp => ?_⟩
  rcases List.mem_append.mp hp with hp | hp
  · exact (hsub (List.mem_cons_of_mem _ hp)).trans (List.sublist_append_left ..)
  · obtain rfl := List.mem_singleton.mp hp
    exact (List.singleton_sublist.mpr hqM).append (List.Sublist.refl [p])

/-- Somebody else leaves; `q` stays behind the first entry. -/
theorem TurnBefore.leave [DecidableEq α] {r : α} (h : TurnBefore q p (x :: T)) (hnd : (x :: T).Nodup) (hr : r ≠ q)
    (hskip : x = r → T.head? ≠ some q) : TurnBefore q p ((x :: T).filter fun z => z ≠ r) := by
  obtain ⟨hq, hqp⟩ := h
  rcases eq_or_ne x r with rfl | hxr
  · rw [filter_ne_head hnd]
    cases T with
    | nil => cases hq
    | cons y M =>
      have hy : y ≠ q := by
        rintro rfl
        exact hskip rfl rfl
      refine ⟨(List.mem_cons.mp hq).resolve_left hy.symm, fun hp => ?_⟩
      exact (List.sublist_cons_iff.mp (hqp (List.mem_cons_of_mem _ hp))).resolve_right
        fun ⟨r, hr, _⟩ => hy (List.cons.inj hr).1.symm
  · rw [List.filter_cons_of_pos (by simpa using hxr)]
    refine ⟨List.mem_filter.mpr ⟨hq, by simpa using hr.symm⟩, fun hp => ?_⟩
    obtain ⟨hp, hpr⟩ := List.mem_filter.mp hp
    have hpr' : p ≠ r := by simpa using hpr
    have hsub := (hqp hp).filter fun z => decide (z ≠ r)
    rwa [List.filter_eq_self.mpr (by simp [hr.symm, hpr'])] at hsub

end BareKernel.Links

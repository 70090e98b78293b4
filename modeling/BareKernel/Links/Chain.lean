import Mathlib.Data.List.Nodup
import Mathlib.Data.Nat.Notation
import Mathlib.Logic.Function.Basic
import Mathlib.Tactic.TypeStar

/-! Singly linked lists that end in a null pointer. A chain lists the nodes met
from a given pointer on. The edits are pushing a node in front, popping the front
node, and linking a node in or out behind its predecessor. -/

namespace BareKernel.Links

open Function (update)

variable {α : Type*} {next next' : α → α} {null a b p : α} {A B L M : List α}

/-- From `a` on, `next` leads through the nodes of the list to `null`. -/
def Chain (next : α → α) (null : α) : α → List α → Prop
  | a, [] => a = null
  | a, x :: L => a = x ∧ x ≠ null ∧ Chain next null (next x) L

/-- The nodes that so many steps meet from a pointer on. -/
def walk [DecidableEq α] (next : α → α) (null : α) : ℕ → α → List α
  | 0, _ => []
  | n + 1, a => if a = null then [] else a :: walk next null n (next a)

theorem Chain.walk_eq [DecidableEq α] {n : ℕ} (h : Chain next null a L) (hn : L.length < n) :
    walk next null n a = L := by
  induction L generalizing a n with
  | nil =>
    cases n with
    | zero => rfl
    | succ n =>
      obtain rfl : a = null := h
      rw [walk, if_pos rfl]
  | cons x L ih =>
    cases n with
    | zero => exact absurd hn (Nat.not_lt_zero _)
    | succ n =>
      obtain ⟨rfl, hx, hL⟩ := h
      rw [walk, if_neg hx, ih hL (Nat.lt_of_succ_lt_succ hn)]

theorem Chain.null_notMem (h : Chain next null a L) : null ∉ L := by
  induction L generalizing a with
  | nil => simp
  | cons x L ih =>
    rw [List.mem_cons, not_or]
    exact ⟨h.2.1.symm, ih h.2.2⟩

/-- Two chains with the same links on their nodes. -/
theorem Chain.congr (h : Chain next null a L) (hag : ∀ x ∈ L, next' x = next x) :
    Chain next' null a L := by
  induction L generalizing a with
  | nil => exact h
  | cons x L ih =>
    refine ⟨h.1, h.2.1, ?_⟩
    rw [hag x (by simp)]
    exact ih h.2.2 fun y hy => hag y (by simp [hy])

/-- A pointer starts at most one chain. -/
theorem Chain.unique (h : Chain next null a L) (h' : Chain next null a M) : L = M := by
  induction L generalizing a M with
  | nil =>
    cases M with
    | nil => rfl
    | cons y M => exact absurd (h'.1.symm.trans h) h'.2.1
  | cons x L ih =>
    cases M with
    | nil => exact absurd (h.1.symm.trans h') h.2.1
    | cons y M =>
      obtain rfl : x = y := h.1.symm.trans h'.1
      rw [ih h.2.2 h'.2.2]

theorem Chain.nil_iff (h : Chain next null a L) : a = null ↔ L = [] := by
  cases L with
  | nil => simpa using show a = null from h
  | cons x L => simpa using fun ha => h.2.1 (h.1.symm.trans ha)

theorem Chain.of_ne (h : Chain next null a L) (ha : a ≠ null) :
    ∃ M, L = a :: M ∧ Chain next null (next a) M := by
  cases L with
  | nil => exact absurd h ha
  | cons x L => exact ⟨L, by rw [h.1], by rw [h.1]; exact h.2.2⟩

theorem Chain.head_eq (h : Chain next null a L) : a = L.head?.getD null := by
  cases L with
  | nil => exact h
  | cons x L => exact h.1

theorem Chain.next_eq (h : Chain next null a (A ++ p :: B)) : next p = B.head?.getD null := by
  induction A generalizing a with
  | nil => exact h.2.2.head_eq
  | cons x A ih => exact ih h.2.2

theorem Chain.push [DecidableEq α] (h : Chain next null a L) (hb : b ∉ L) (hn : b ≠ null) :
    Chain (update next b a) null b (b :: L) := by
  refine ⟨rfl, hn, ?_⟩
  rw [Function.update_self]
  apply h.congr
  intro x hx
  apply Function.update_of_ne
  rintro rfl
  exact hb hx

/-- Linking in a node behind `p`. -/
theorem Chain.insert [DecidableEq α] (h : Chain next null a (A ++ p :: B)) (hnd : (A ++ p :: B).Nodup)
    (hb : b ∉ A ++ p :: B) (hn : b ≠ null) :
    Chain (update (update next b (next p)) p b) null a (A ++ p :: b :: B) := by
  induction A generalizing a with
  | nil =>
    obtain ⟨rfl, hp, hB⟩ := h
    have hba : b ≠ a := fun he => hb (by simp [he])
    refine ⟨rfl, hp, Function.update_self .., hn, ?_⟩
    rw [Function.update_of_ne hba, Function.update_self]
    apply hB.congr
    intro x hx
    have hxa : x ≠ a := by
      rintro rfl
      simp [hx] at hnd
    have hxb : x ≠ b := by
      rintro rfl
      exact hb (by simp [hx])
    rw [Function.update_of_ne hxa, Function.update_of_ne hxb]
  | cons c A ih =>
    obtain ⟨rfl, hc, hrest⟩ := h
    rw [List.cons_append, List.nodup_cons] at hnd
    rw [List.cons_append, List.mem_cons, not_or] at hb
    refine ⟨rfl, hc, ?_⟩
    have hap : a ≠ p := by
      rintro rfl
      exact hnd.1 (by simp)
    rw [Function.update_of_ne hap, Function.update_of_ne (Ne.symm hb.1)]
    exact ih hrest hnd.2 hb.2

/-- Linking out a node behind `p`. -/
theorem Chain.unlink [DecidableEq α] (h : Chain next null a (A ++ p :: b :: B))
    (hnd : (A ++ p :: b :: B).Nodup) :
    Chain (update next p (next b)) null a (A ++ p :: B) := by
  induction A generalizing a with
  | nil =>
    obtain ⟨rfl, hp, rfl, hb, hB⟩ := h
    refine ⟨rfl, hp, ?_⟩
    rw [Function.update_self]
    apply hB.congr
    intro x hx
    apply Function.update_of_ne
    rintro rfl
    simp [hx] at hnd
  | cons c A ih =>
    obtain ⟨rfl, hc, hrest⟩ := h
    rw [List.cons_append, List.nodup_cons] at hnd
    refine ⟨rfl, hc, ?_⟩
    rw [Function.update_of_ne]
    · exact ih hrest hnd.2
    · rintro rfl
      exact hnd.1 (by simp)

/-- Linking in a node behind the last of `A`, `null` standing for the front. -/
theorem Chain.insertAt [DecidableEq α] (h : Chain next null a (A ++ B)) (hnd : (A ++ B).Nodup)
    (hb : b ∉ A ++ B) (hn : b ≠ null) :
    let prev := A.getLast?.getD null
    let next := update next b (B.head?.getD null)
    Chain (if prev = null then next else update next prev b) null (if prev = null then b else a)
      (A ++ b :: B) := by
  rcases A.eq_nil_or_concat with rfl | ⟨A, p, rfl⟩
  · rw [List.nil_append] at h hb
    simp only [List.getLast?_nil, Option.getD_none, if_true, List.nil_append, ← h.head_eq]
    exact h.push hb hn
  · rw [List.concat_eq_append] at *
    have hp : p ≠ null := by
      rintro rfl
      exact h.null_notMem (by simp)
    rw [List.append_assoc, List.singleton_append] at h hnd hb
    simp only [List.getLast?_concat, Option.getD_some, hp, if_false, ← h.next_eq, List.append_assoc,
      List.singleton_append]
    exact h.insert hnd hb hn

/-- Linking out the node behind the last of `A`. -/
theorem Chain.unlinkAt [DecidableEq α] (h : Chain next null a (A ++ b :: B)) (hnd : (A ++ b :: B).Nodup) :
    let prev := A.getLast?.getD null
    Chain (if prev = null then next else update next prev (next b)) null
      (if prev = null then next b else a) (A ++ B) := by
  rcases A.eq_nil_or_concat with rfl | ⟨A, p, rfl⟩
  · simp only [List.getLast?_nil, Option.getD_none, if_true, List.nil_append]
    exact h.2.2
  · rw [List.concat_eq_append] at *
    have hp : p ≠ null := by
      rintro rfl
      exact h.null_notMem (by simp)
    rw [List.append_assoc, List.singleton_append] at h hnd
    simp only [List.getLast?_concat, Option.getD_some, hp, if_false, List.append_assoc,
      List.singleton_append]
    exact h.unlink hnd

end BareKernel.Links

import Mathlib.Data.Finset.Card
import Mathlib.Data.List.Induction
import Mathlib.Data.List.Nodup
import Mathlib.Tactic.TypeStar

/-! A counting semaphore that hands its tokens out in the order of the waits. Who has
been granted a token and who still waits are, one behind the other, all who came. -/

namespace BareKernel.Links

/-- What happens at a semaphore. -/
inductive SemEvent (α : Type*) where
  | wait (a : α)
  | post
deriving DecidableEq

/-- The tokens, those who wait, the longest first, and those who have got a token. -/
structure FifoSem (α : Type*) where
  value : ℕ
  waiting : List α
  granted : List α
deriving DecidableEq

namespace FifoSem

variable {α : Type*} {s : FifoSem α} {es fs : List (SemEvent α)} {v : ℕ}

def start (v : ℕ) : FifoSem α := ⟨v, [], []⟩

def step (s : FifoSem α) : SemEvent α → FifoSem α
  | .wait a =>
    if s.value = 0 then { s with waiting := s.waiting ++ [a] }
    else { s with value := s.value - 1, granted := s.granted ++ [a] }
  | .post =>
    match s.waiting with
    | [] => { s with value := s.value + 1 }
    | a :: rest => { s with waiting := rest, granted := s.granted ++ [a] }

def run (s : FifoSem α) (es : List (SemEvent α)) : FifoSem α := es.foldl step s

/-- Who came, in this order. -/
def waits : List (SemEvent α) → List α
  | [] => []
  | .wait a :: es => a :: waits es
  | .post :: es => waits es

def posts : List (SemEvent α) → ℕ
  | [] => 0
  | .wait _ :: es => posts es
  | .post :: es => posts es + 1

theorem step_wait_queue (h : s.value = 0) (a : α) :
    s.step (.wait a) = { s with waiting := s.waiting ++ [a] } := if_pos h

theorem step_wait_token (h : s.value ≠ 0) (a : α) :
    s.step (.wait a) = { s with value := s.value - 1, granted := s.granted ++ [a] } := if_neg h

theorem step_post_nil (h : s.waiting = []) : s.step .post = ⟨s.value + 1, [], s.granted⟩ := by
  simp only [step, h]

theorem step_post_cons {a : α} {rest : List α} (h : s.waiting = a :: rest) :
    s.step .post = ⟨s.value, rest, s.granted ++ [a]⟩ := by
  simp only [step, h]

@[simp] theorem run_nil (s : FifoSem α) : s.run [] = s := rfl

theorem run_append (s : FifoSem α) (es fs : List (SemEvent α)) : s.run (es ++ fs) = (s.run es).run fs :=
  List.foldl_append

theorem waits_append (es fs : List (SemEvent α)) : waits (es ++ fs) = waits es ++ waits fs := by
  induction es with
  | nil => rfl
  | cons e es ih =>
    cases e with
    | wait a => exact congrArg (a :: ·) ih
    | post => exact ih

theorem posts_append (es fs : List (SemEvent α)) : posts (es ++ fs) = posts es + posts fs := by
  induction es with
  | nil => exact (Nat.zero_add _).symm
  | cons e es ih =>
    cases e with
    | wait a => exact ih
    | post => exact (congrArg (· + 1) ih).trans (Nat.add_right_comm ..)

/-- Nobody waits while there is a token, tokens are handed out in the order of the
waits, and none is lost. -/
structure Lawful (v : ℕ) (es : List (SemEvent α)) (s : FifoSem α) : Prop where
  idle : s.value ≠ 0 → s.waiting = []
  order : waits es = s.granted ++ s.waiting
  tokens : v + posts es = s.value + s.granted.length

theorem Lawful.step (h : Lawful v es s) (e : SemEvent α) : Lawful v (es ++ [e]) (s.step e) := by
  have hpost := posts_append es [e]
  have hwait := waits_append es [e]
  obtain ⟨hidle, horder, htokens⟩ := h
  rw [horder] at hwait
  cases e with
  | wait a =>
    have hnone : posts [SemEvent.wait a] = 0 := rfl
    have hone : waits [SemEvent.wait a] = [a] := rfl
    by_cases hv : s.value = 0
    · rw [step_wait_queue hv]
      refine ⟨fun h0 => absurd hv h0, ?_, ?_⟩
      · rw [hwait, hone, List.append_assoc]
      · rw [hpost, hnone, Nat.add_zero, htokens]
    · have hnobody := hidle hv
      rw [step_wait_token hv]
      refine ⟨fun _ => hnobody, ?_, ?_⟩
      · rw [hwait, hone, hnobody, List.append_nil, List.append_nil]
      · rw [hpost, hnone, List.length_append, List.length_singleton]
        show _ = s.value - 1 + (s.granted.length + 1)
        omega
  | post =>
    have hone : posts [(SemEvent.post : SemEvent α)] = 1 := rfl
    have hnone : waits [(SemEvent.post : SemEvent α)] = [] := rfl
    rw [hone] at hpost
    rw [hnone, List.append_nil] at hwait
    cases hw : s.waiting with
    | nil =>
      rw [step_post_nil hw]
      rw [hw] at hwait
      refine ⟨fun _ => rfl, hwait, ?_⟩
      show _ = s.value + 1 + s.granted.length
      omega
    | cons a rest =>
      rw [step_post_cons hw]
      refine ⟨fun hv => ?_, ?_, ?_⟩
      · rw [hidle hv] at hw
        cases hw
      · rw [hwait, hw, List.append_assoc]
        rfl
      · rw [List.length_append, List.length_singleton]
        show _ = s.value + (s.granted.length + 1)
        omega

theorem run_lawful (v : ℕ) (es : List (SemEvent α)) : Lawful v es ((start v).run es) := by
  induction es using List.reverseRecOn with
  | nil => exact ⟨fun _ => rfl, rfl, rfl⟩
  | append_singleton es e ih =>
    rw [run_append]
    exact ih.step e

/-! ### Tokens in use -/

/-- Of some who have come for a token, those who do not wait hold one, and `n` tokens are
free or held by them. -/
def Holders (s : FifoSem α) (came : α → Prop) (n : ℕ) : Prop :=
  ∃ held : List α, held.Nodup ∧ (∀ a, a ∈ held ↔ came a ∧ a ∉ s.waiting) ∧ s.value + held.length = n

variable {came came' : α → Prop} {n : ℕ} {a : α}

theorem Holders.congr (h : Holders s came n) (hcame : ∀ a, came' a ↔ came a) : Holders s came' n := by
  obtain rfl : came' = came := funext fun a => propext (hcame a)
  exact h

theorem Holders.value_le (h : Holders s came n) : s.value ≤ n := by
  obtain ⟨held, -, -, hsum⟩ := h
  omega

/-- If all tokens are free then nobody holds one. -/
theorem Holders.none (h : Holders s came n) (hv : s.value = n) (ha : came a) : a ∈ s.waiting := by
  obtain ⟨held, -, hheld, hsum⟩ := h
  by_contra hw
  have hpos := List.length_pos_of_mem ((hheld a).mpr ⟨ha, hw⟩)
  omega

/-- If all of them wait then all tokens are free. -/
theorem Holders.idle (hv : s.value = n) (hwait : ∀ a, came a → a ∈ s.waiting) : Holders s came n := by
  refine ⟨[], List.nodup_nil, fun a => ?_, by rw [List.length_nil, hv]; rfl⟩
  exact iff_of_false List.not_mem_nil fun hboth => hboth.2 (hwait a hboth.1)

/-- Whoever finds no token waits and holds none. -/
theorem Holders.queue (h : Holders s came n) (hv : s.value = 0) (ha : came a → a ∈ s.waiting)
    (hcame : ∀ b, b ≠ a → (came' b ↔ came b)) : Holders (s.step (.wait a)) came' n := by
  obtain ⟨held, hnodup, hheld, hsum⟩ := h
  rw [step_wait_queue hv]
  refine ⟨held, hnodup, fun b => ?_, hsum⟩
  rw [hheld, List.mem_append, List.mem_singleton]
  constructor
  · rintro ⟨hb, hw⟩
    have hba : b ≠ a := by
      rintro rfl
      exact hw (ha hb)
    exact ⟨(hcame b hba).mpr hb, fun hor => hor.elim hw hba⟩
  · rintro ⟨hb, hw⟩
    exact ⟨(hcame b fun hba => hw (Or.inr hba)).mp hb, fun hin => hw (Or.inl hin)⟩

/-- Whoever finds a token holds it. -/
theorem Holders.take (h : Holders s came n) (hv : s.value ≠ 0) (hnobody : s.waiting = []) (ha : ¬came a) :
    Holders (s.step (.wait a)) (fun b => came b ∨ b = a) n := by
  obtain ⟨held, hnodup, hheld, hsum⟩ := h
  rw [step_wait_token hv]
  refine ⟨a :: held, List.nodup_cons.mpr ⟨fun hmem => ha ((hheld a).mp hmem).1, hnodup⟩, fun b => ?_, ?_⟩
  · show b ∈ a :: held ↔ (came b ∨ b = a) ∧ b ∉ s.waiting
    rw [List.mem_cons, hheld, hnobody]
    simp only [List.not_mem_nil, not_false_iff, and_true]
    exact or_comm
  · show s.value - 1 + (held.length + 1) = n
    omega

/-- A post is one more free token if nobody waits. -/
theorem Holders.post_nil (h : Holders s came n) (hw : s.waiting = []) : Holders (s.step .post) came (n + 1) := by
  obtain ⟨held, hnodup, hheld, hsum⟩ := h
  rw [step_post_nil hw]
  refine ⟨held, hnodup, fun b => by rw [hheld, hw], ?_⟩
  show s.value + 1 + held.length = n + 1
  omega

/-- The first one that waits holds the token of a post. -/
theorem Holders.post_cons {rest : List α} (h : Holders s came n) (hw : s.waiting = a :: rest) (hnodup : s.waiting.Nodup)
    (ha : came a) : Holders (s.step .post) came (n + 1) := by
  obtain ⟨held, hheldNodup, hheld, hsum⟩ := h
  rw [hw] at hnodup
  obtain ⟨hnot, -⟩ := List.nodup_cons.mp hnodup
  rw [step_post_cons hw]
  refine ⟨a :: held, List.nodup_cons.mpr ⟨fun hmem => ((hheld a).mp hmem).2 ?_, hheldNodup⟩, fun b => ?_, ?_⟩
  · rw [hw]
    exact List.mem_cons_self
  · rw [List.mem_cons, hheld, hw, List.mem_cons]
    constructor
    · rintro (rfl | ⟨hb, hnb⟩)
      · exact ⟨ha, hnot⟩
      · exact ⟨hb, fun hin => hnb (Or.inr hin)⟩
    · rintro ⟨hb, hnb⟩
      by_cases hba : b = a
      · exact Or.inl hba
      · exact Or.inr ⟨hb, fun hor => hor.elim hba hnb⟩
  · show s.value + (held.length + 1) = n + 1
    omega

/-- The token of a post goes to somebody else. -/
theorem Holders.post_other {rest : List α} (h : Holders s came n) (hw : s.waiting = a :: rest) (ha : ¬came a) :
    Holders (s.step .post) came n := by
  obtain ⟨held, hnodup, hheld, hsum⟩ := h
  rw [step_post_cons hw]
  refine ⟨held, hnodup, fun b => ?_, hsum⟩
  rw [hheld, hw, List.mem_cons]
  refine and_congr_right fun hb => not_congr (or_iff_right ?_)
  rintro rfl
  exact ha hb

/-- One who holds a token uses it. -/
theorem Holders.use (h : Holders s came n) (ha : came a) (hw : a ∉ s.waiting) :
    0 < n ∧ Holders s (fun b => came b ∧ b ≠ a) (n - 1) := by
  obtain ⟨held, hnodup, hheld, hsum⟩ := h
  obtain ⟨front, back, rfl⟩ := List.append_of_mem ((hheld a).mpr ⟨ha, hw⟩)
  have hcons : (a :: (front ++ back)).Nodup := List.nodup_middle.mp hnodup
  obtain ⟨hnot, hrest⟩ := List.nodup_cons.mp hcons
  rw [List.length_append, List.length_cons] at hsum
  refine ⟨by omega, front ++ back, hrest, fun b => ?_, ?_⟩
  · have hmem : b ∈ front ++ a :: back ↔ b = a ∨ b ∈ front ++ back := by
      rw [List.mem_append, List.mem_cons, List.mem_append]
      exact or_left_comm
    have hb := (hmem.symm.trans (hheld b))
    constructor
    · intro hin
      obtain ⟨hcame, hnb⟩ := hb.mp (Or.inr hin)
      refine ⟨⟨hcame, ?_⟩, hnb⟩
      rintro rfl
      exact hnot hin
    · rintro ⟨⟨hcame, hne⟩, hnb⟩
      exact (hb.mpr ⟨hcame, hnb⟩).resolve_left hne
  · rw [List.length_append]
    omega

/-- These are all who have come for a token. -/
structure Books (s : FifoSem α) (came : α → Prop) (n : ℕ) : Prop where
  idle : s.value ≠ 0 → s.waiting = []
  nodup : s.waiting.Nodup
  arrived : ∀ a ∈ s.waiting, came a
  holders : Holders s came n

theorem Books.start (v : ℕ) (hnobody : ∀ a, ¬came a) : Books (FifoSem.start v) came v := by
  refine ⟨fun _ => rfl, List.nodup_nil, fun a ha => absurd ha List.not_mem_nil, [], List.nodup_nil, fun a => ?_, rfl⟩
  exact ⟨fun ha => absurd ha List.not_mem_nil, fun ha => absurd ha.1 (hnobody a)⟩

theorem Books.congr (h : Books s came n) (hcame : ∀ a, came' a ↔ came a) : Books s came' n := by
  obtain rfl : came' = came := funext fun a => propext (hcame a)
  exact h

/-- One more comes for a token. -/
theorem Books.wait (h : Books s came n) (ha : ¬came a) :
    Books (s.step (.wait a)) (fun b => came b ∨ b = a) n := by
  have hnot : a ∉ s.waiting := fun hw => ha (h.arrived a hw)
  by_cases hv : s.value = 0
  · have hholders : Holders (s.step (.wait a)) (fun b => came b ∨ b = a) n :=
      h.holders.queue hv (fun hcame => absurd hcame ha) fun b hba => or_iff_left hba
    rw [step_wait_queue hv] at hholders ⊢
    refine ⟨fun h0 => absurd hv h0, ?_, fun b hb => ?_, hholders⟩
    · refine List.nodup_append.mpr ⟨h.nodup, List.nodup_singleton a, ?_⟩
      rintro x hx y hy rfl
      exact hnot (List.mem_singleton.mp hy ▸ hx)
    · rcases List.mem_append.mp hb with hb | hb
      · exact Or.inl (h.arrived b hb)
      · exact Or.inr (List.mem_singleton.mp hb)
  · have hnobody := h.idle hv
    have hholders := h.holders.take hv hnobody ha
    rw [step_wait_token hv] at hholders ⊢
    exact ⟨fun _ => hnobody, h.nodup, fun b hb => Or.inl (h.arrived b hb), hholders⟩

/-- There is one more token. -/
theorem Books.post (h : Books s came n) : Books (s.step .post) came (n + 1) := by
  cases hw : s.waiting with
  | nil =>
    have hholders := h.holders.post_nil hw
    rw [step_post_nil hw] at hholders ⊢
    exact ⟨fun _ => rfl, List.nodup_nil, fun b hb => absurd hb List.not_mem_nil, hholders⟩
  | cons a rest =>
    have hcame : came a := h.arrived a (by rw [hw]; exact List.mem_cons_self)
    have hholders := h.holders.post_cons hw h.nodup hcame
    have hnodup := h.nodup
    rw [hw] at hnodup
    rw [step_post_cons hw] at hholders ⊢
    refine ⟨fun hv => ?_, (List.nodup_cons.mp hnodup).2,
      fun b hb => h.arrived b (by rw [hw]; exact List.mem_cons_of_mem a hb), hholders⟩
    have hnone := h.idle hv
    rw [hw] at hnone
    cases hnone

/-- One who holds a token uses it. -/
theorem Books.use (h : Books s came n) (ha : came a) (hw : a ∉ s.waiting) :
    0 < n ∧ Books s (fun b => came b ∧ b ≠ a) (n - 1) := by
  obtain ⟨hpos, hholders⟩ := h.holders.use ha hw
  refine ⟨hpos, h.idle, h.nodup, fun b hb => ⟨h.arrived b hb, ?_⟩, hholders⟩
  rintro rfl
  exact hw hb

end FifoSem

/-! ### Tokens that may be lost -/

/-- The free tokens and the holders are at most `n`. -/
def Within {α : Type*} (value : ℕ) (holds : α → Prop) (n : ℕ) : Prop :=
  ∃ held : Finset α, (∀ a, holds a → a ∈ held) ∧ value + held.card ≤ n

namespace Within

variable {α : Type*} {value n v m : ℕ} {holds holds' : α → Prop} {a : α}

theorem start (hnobody : ∀ a, ¬holds a) : Within 0 holds 0 := by
  refine ⟨∅, fun a ha => absurd ha (hnobody a), ?_⟩
  rw [Finset.card_empty]

/-- Holders go away, and more tokens are allowed. -/
theorem mono (h : Within value holds n) (hh : ∀ a, holds' a → holds a) (hv : v + n ≤ value + m) :
    Within v holds' m := by
  obtain ⟨held, hheld, hsum⟩ := h
  exact ⟨held, fun a ha => hheld a (hh a ha), by omega⟩

/-- One more holder. -/
theorem hold [DecidableEq α] (h : Within value holds n) (hh : ∀ b, holds' b → holds b ∨ b = a)
    (hv : v + n + 1 ≤ value + m) : Within v holds' m := by
  obtain ⟨held, hheld, hsum⟩ := h
  refine ⟨insert a held, fun b hb => ?_, ?_⟩
  · rcases hh b hb with hold | rfl
    · exact Finset.mem_insert_of_mem (hheld b hold)
    · exact Finset.mem_insert_self ..
  · have hcard := Finset.card_insert_le a held
    omega

/-- A holder uses its token. -/
theorem use [DecidableEq α] (h : Within value holds n) (ha : holds a) (hh : ∀ b, holds' b → holds b ∧ b ≠ a) :
    0 < n ∧ Within value holds' (n - 1) := by
  obtain ⟨held, hheld, hsum⟩ := h
  have hmem := hheld a ha
  have hcard := Finset.card_erase_of_mem hmem
  have hpos := Finset.card_pos.mpr ⟨a, hmem⟩
  refine ⟨by omega, held.erase a, fun b hb => ?_, by omega⟩
  obtain ⟨hold, hne⟩ := hh b hb
  exact Finset.mem_erase.mpr ⟨hne, hheld b hold⟩

theorem value_le (h : Within value holds n) : value ≤ n := by
  obtain ⟨held, -, hsum⟩ := h
  omega

end Within

end BareKernel.Links

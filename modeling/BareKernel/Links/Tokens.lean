import BareKernel.Links.Counting
import Mathlib.Data.Multiset.Count

/-! The tokens of a counting semaphore: each one is at the semaphore or in the hands of
somebody whose wait went through and who has not posted since. If only those who hold a
token post, the tokens are neither lost nor multiplied. -/

namespace BareKernel.Links.FifoSem

variable {α : Type*} [DecidableEq α] {s : FifoSem α} {held held' : α → ℕ} {a b : α} {v : ℕ}

/-- The wait of `b` goes through in the step: it comes and is not queued, or it leaves
the queue. -/
def Gets (s : FifoSem α) (e : SemEvent α) (b : α) : Prop := b ∉ (s.step e).waiting ∧ (b ∈ s.waiting ∨ e = .wait b)

/-- Those who hold tokens, each as often as it holds one, and the tokens that are left. -/
def Accounted (v : ℕ) (s : FifoSem α) (held : α → ℕ) : Prop :=
  ∃ hs : Multiset α, (∀ a, hs.count a = held a) ∧ hs.card + s.value = v

theorem Accounted.start (v : ℕ) : Accounted v (start v) fun _ : α => 0 := ⟨0, fun _ => rfl, Nat.zero_add v⟩

theorem Accounted.wait (h : Accounted v s held) (hidle : s.value ≠ 0 → s.waiting = [])
    (hkeep : ∀ b, ¬s.Gets (.wait a) b → held' b = held b) (hget : ∀ b, s.Gets (.wait a) b → held' b = held b + 1) :
    Accounted v (s.step (.wait a)) held' := by
  obtain ⟨hs, hcount, hcard⟩ := h
  by_cases hv : s.value = 0
  · -- the wait is queued, and nobody else's goes through
    have hnobody (b : α) : ¬s.Gets (.wait a) b := by
      rintro ⟨hnot, hb⟩
      rw [step_wait_queue hv] at hnot
      have hboth := not_or.mp fun h => hnot (List.mem_append.mpr h)
      rcases hb with hb | hb
      · exact hboth.1 hb
      · obtain rfl := SemEvent.wait.inj hb
        exact hboth.2 (List.mem_singleton_self a)
    rw [step_wait_queue hv]
    exact ⟨hs, fun b => (hcount b).trans (hkeep b (hnobody b)).symm, hcard⟩
  · have hone (b : α) : s.Gets (.wait a) b ↔ b = a := by
      rw [Gets, step_wait_token hv, hidle hv]
      simp [eq_comm]
    rw [step_wait_token hv]
    refine ⟨a ::ₘ hs, fun b => ?_, ?_⟩
    · by_cases hb : b = a
      · rw [hget b ((hone b).mpr hb), hb, Multiset.count_cons_self, hcount]
      · rw [hkeep b (mt (hone b).mp hb), Multiset.count_cons_of_ne hb, hcount]
    · rw [Multiset.card_cons]
      show hs.card + 1 + (s.value - 1) = v
      omega

/-- The token of a post goes to the longest waiting, if somebody waits. -/
theorem Accounted.post (h : Accounted v s held) (ha : 0 < held a) (hnodup : s.waiting.Nodup)
    (hkeep : ∀ b, ¬s.Gets .post b → held' b = held b - if b = a then 1 else 0)
    (hget : ∀ b, s.Gets .post b → held' b = (held b - if b = a then 1 else 0) + 1) :
    Accounted v (s.step .post) held' := by
  obtain ⟨hs, hcount, hcard⟩ := h
  have hmem : a ∈ hs := Multiset.count_pos.mp ((hcount a).symm ▸ ha)
  have herase (b : α) : (hs.erase a).count b = held b - if b = a then 1 else 0 := by
    by_cases hb : b = a
    · rw [if_pos hb, hb, Multiset.count_erase_self, hcount]
    · rw [if_neg hb, Multiset.count_erase_of_ne hb, hcount, Nat.sub_zero]
  have hless : (hs.erase a).card + 1 = hs.card := Multiset.card_erase_add_one hmem
  cases hw : s.waiting with
  | nil =>
    have hnobody (b : α) : ¬s.Gets .post b := by
      rintro ⟨-, hb | hb⟩
      · rw [hw] at hb
        exact List.not_mem_nil hb
      · cases hb
    rw [step_post_nil hw]
    refine ⟨hs.erase a, fun b => (herase b).trans (hkeep b (hnobody b)).symm, ?_⟩
    show (hs.erase a).card + (s.value + 1) = v
    omega
  | cons c rest =>
    rw [hw] at hnodup
    have hone (b : α) : s.Gets .post b ↔ b = c := by
      rw [Gets, step_post_cons hw, hw]
      have hnot : c ∉ rest := (List.nodup_cons.mp hnodup).1
      constructor
      · rintro ⟨hleft, hb | hb⟩
        · exact (List.mem_cons.mp hb).resolve_right hleft
        · cases hb
      · rintro rfl
        exact ⟨hnot, Or.inl (List.mem_cons_self ..)⟩
    rw [step_post_cons hw]
    refine ⟨c ::ₘ hs.erase a, fun b => ?_, ?_⟩
    · by_cases hb : b = c
      · rw [hget b ((hone b).mpr hb), ← herase, hb, Multiset.count_cons_self]
      · rw [hkeep b (mt (hone b).mp hb), ← herase, Multiset.count_cons_of_ne hb]
    · rw [Multiset.card_cons]
      show (hs.erase a).card + 1 + s.value = v
      omega

theorem Accounted.value_lt (h : Accounted v s held) (ha : 0 < held a) : s.value < v := by
  obtain ⟨hs, hcount, hcard⟩ := h
  have hpos : 0 < hs.card := Multiset.card_pos_iff_exists_mem.mpr ⟨a, Multiset.count_pos.mp ((hcount a).symm ▸ ha)⟩
  omega

/-- A single token is in one hand at most. -/
theorem Accounted.unique (h : Accounted 1 s held) (ha : 0 < held a) (hb : 0 < held b) : a = b := by
  obtain ⟨hs, hcount, hcard⟩ := h
  by_contra hne
  have hmem : ∀ c, 0 < held c → c ∈ hs := fun c hc => Multiset.count_pos.mp ((hcount c).symm ▸ hc)
  have hpair : 1 < hs.card := by
    have hle := Multiset.card_erase_add_one (hmem a ha)
    have hb' : b ∈ hs.erase a := (Multiset.mem_erase_of_ne (Ne.symm hne)).mpr (hmem b hb)
    have hpos := Multiset.card_pos_iff_exists_mem.mpr ⟨b, hb'⟩
    omega
  omega

end BareKernel.Links.FifoSem

import BareKernel.Kernel.Effect

/-! The sleep list as a list of entries. A new entry stands behind those that are due
no later; a tick takes out the entries that are due and those whose pid nobody has,
and wakes the processes of the due ones. -/

namespace BareKernel

open Function (update)
open Process Links

variable {k k' : Kernel} {c c' : Core} {s : SleepQueue} {L A B E : List ℕ} {e p q wake now fuel : ℕ}

/-! ### Adding an entry -/

theorem sleepSlot_eq (wake : ℕ) (h : Chain s.entryNext 0 e B) (hfuel : B.length < fuel) (A : List ℕ) :
    ∃ B₁ B₂, B = B₁ ++ B₂ ∧ (∀ x ∈ B₁, s.wakeTick x ≤ wake) ∧ (∀ x ∈ B₂.head?, wake < s.wakeTick x) ∧
      sleepSlot s wake fuel (A.getLast?.getD 0) e =
        some ((A ++ B₁).getLast?.getD 0, B₂.head?.getD 0) := by
  induction B generalizing e A fuel with
  | nil =>
    obtain ⟨fuel, rfl⟩ := Nat.exists_eq_succ_of_ne_zero (Nat.ne_of_gt hfuel)
    obtain rfl : e = 0 := h
    exact ⟨[], [], rfl, by simp, by simp, by simp [sleepSlot]⟩
  | cons b B ih =>
    obtain ⟨fuel, rfl⟩ := Nat.exists_eq_succ_of_ne_zero (Nat.ne_of_gt (Nat.zero_lt_of_lt hfuel))
    obtain ⟨rfl, h0, hB⟩ := h
    by_cases hw : s.wakeTick e ≤ wake
    · have hlen : B.length < fuel := by
        simp only [List.length_cons] at hfuel
        omega
      obtain ⟨B₁, B₂, rfl, hle, hlt, hrun⟩ := ih hB hlen (A ++ [e])
      refine ⟨e :: B₁, B₂, rfl, ?_, hlt, ?_⟩
      · intro x hx
        rcases List.mem_cons.mp hx with rfl | hx
        · exact hw
        · exact hle x hx
      · rw [sleepSlot, if_pos ⟨h0, hw⟩]
        simpa using hrun
    · refine ⟨[], e :: B, rfl, by simp, ?_, ?_⟩
      · intro x hx
        obtain rfl : e = x := by simpa using hx
        exact not_le.mp hw
      · simp [sleepSlot, hw]

theorem Sleepers.length_lt (h : Sleepers k E) : E.length < k.sleepFuel :=
  Nat.lt_succ_of_le (List.subperm_of_subset h.nodup h.live).length_le

/-- The entries of the sleep list. -/
def Kernel.sleepEntries (k : Kernel) : List ℕ := walk k.entryNext 0 k.sleepFuel k.sleepList

theorem Sleepers.entries_eq (h : Sleepers k E) : k.sleepEntries = E := h.chain.walk_eq h.length_lt

/-- The allocator has no block, or gives the block of the new entry. -/
theorem sleepQueueAdd_cases {wake : ℕ} (h : k.sleepQueueAdd p wake = some k') :
    (∃ answers, k' = { k with answers := answers }) ∨
      ∃ answers e s, k' = { k with
        answers := answers
        live := update k.live .sleepEntry (e :: k.live .sleepEntry)
        toSleepQueue := s } := by
  unfold Kernel.sleepQueueAdd at h
  rcases mmMalloc_cases k.toCore .sleepEntry with ⟨rest, hm⟩ | ⟨e, rest, h0, -, hm⟩
  · simp only [hm, if_true] at h
    exact Or.inl ⟨rest, (Option.some.inj h).symm⟩
  · simp only [hm, h0, if_false] at h
    obtain ⟨⟨before, behind⟩, -, hret⟩ := Option.bind_eq_some_iff.mp h
    exact Or.inr ⟨rest, e, _, (Option.some.inj hret).symm⟩

/-- The new entry of a process, if the allocator had a block for it. -/
theorem sleepQueueAdd_spec (h : Sleepers k E) (p wake : ℕ) :
    ∃ answers live s, k.sleepQueueAdd p wake =
        some { k with answers := answers, live := live, toSleepQueue := s } ∧
      (∀ kind, kind ≠ .sleepEntry → live kind = k.live kind) ∧
      (((mmMalloc k.toCore .sleepEntry).1 = 0 ∧ s = k.toSleepQueue ∧ live = k.live) ∨
        ∃ e A B, (mmMalloc k.toCore .sleepEntry).1 = e ∧ e ≠ 0 ∧ e ∉ E ∧ E = A ++ B ∧
          (∀ x ∈ A, k.wakeTick x ≤ wake) ∧ (∀ x ∈ B.head?, wake < k.wakeTick x) ∧
          s.entryProc = update k.entryProc e p ∧ s.wakeTick = update k.wakeTick e wake ∧
          Sleepers { k with answers := answers, live := live, toSleepQueue := s } (A ++ e :: B)) := by
  rcases mmMalloc_cases k.toCore .sleepEntry with ⟨rest, hm⟩ | ⟨e, rest, h0, hfresh, hm⟩
  · refine ⟨rest, k.live, k.toSleepQueue, ?_, fun _ _ => rfl, Or.inl ⟨by rw [hm], rfl, rfl⟩⟩
    simp only [Kernel.sleepQueueAdd, hm, if_true]
  · have heE : e ∉ E := fun he => hfresh (h.live e he)
    set live := update k.live .sleepEntry (e :: k.live .sleepEntry) with hlive
    have hsleep : live .sleepEntry = e :: k.live .sleepEntry := by rw [hlive, Function.update_self]
    set s₁ : SleepQueue := { k.toSleepQueue with
      entryProc := update k.entryProc e p
      wakeTick := update k.wakeTick e wake } with hs₁
    have hlen : E.length < (live .sleepEntry).length + 1 := by
      rw [hsleep, List.length_cons]
      exact Nat.lt_succ_of_lt h.length_lt
    obtain ⟨A, B, rfl, hle, hlt, hrun⟩ :=
      sleepSlot_eq (s := s₁) wake (show Chain s₁.entryNext 0 s₁.sleepList E from h.chain) hlen []
    have hold : ∀ x ∈ A ++ B, s₁.wakeTick x = k.wakeTick x := by
      intro x hx
      apply Function.update_of_ne
      rintro rfl
      exact heE hx
    have hchain := h.chain.insertAt h.nodup heE h0
    simp only [List.getLast?_nil, Option.getD_none, List.nil_append] at hrun
    refine ⟨rest, live, { s₁ with
        sleepList := if A.getLast?.getD 0 = 0 then e else k.sleepList
        entryNext := if A.getLast?.getD 0 = 0 then update k.entryNext e (B.head?.getD 0)
          else update (update k.entryNext e (B.head?.getD 0)) (A.getLast?.getD 0) e }, ?_, fun kind hk => ?_,
      Or.inr ⟨e, A, B, by rw [hm], h0, heE, rfl, fun x hx => ?_, fun x hx => ?_, rfl, rfl, hchain, ?_,
        fun x hx => ?_⟩⟩
    · simp only [Kernel.sleepQueueAdd, hm, h0, if_false]
      exact Option.bind_eq_some_iff.mpr ⟨_, hrun, rfl⟩
    · exact Function.update_of_ne hk ..
    · rw [← hold x (by simp [hx])]
      exact hle x hx
    · rw [← hold x (List.mem_append_right A (List.mem_of_mem_head? hx))]
      exact hlt x hx
    · exact List.nodup_middle.mpr (List.nodup_cons.mpr ⟨heE, h.nodup⟩)
    · show x ∈ live .sleepEntry
      rw [hsleep]
      rcases List.mem_append.mp hx with hx | hx
      · exact List.mem_cons_of_mem _ (h.live x (by simp [hx]))
      · rcases List.mem_cons.mp hx with rfl | hx
        · exact List.mem_cons_self
        · exact List.mem_cons_of_mem _ (h.live x (by simp [hx]))

/-! ### A tick -/

/-- What dropping an entry does and what waking its process does, the handler does. -/
theorem sleepTick_induction {R : Kernel → Kernel → Prop} (hrefl : ∀ k, R k k)
    (htrans : ∀ k₁ k₂ k₃, R k₁ k₂ → R k₂ k₃ → R k₁ k₃)
    (hdrop : ∀ k prev next e, R k ((k.unlinkEntry prev next).freeEntry e))
    (hwake : ∀ k prev next e v c, unblockProcess k.toCore (k.pid (k.entryProc e)) = some (v, c) →
      R k (Kernel.freeEntry { k.unlinkEntry prev next with toCore := c } e))
    (h : Kernel.sleepTick now fuel prev cur k = some k') : R k k' := by
  induction fuel generalizing k prev cur with
  | zero => cases h
  | succ fuel ih =>
    unfold Kernel.sleepTick at h
    dsimp only at h
    split at h
    · obtain rfl := Option.some.inj h
      exact hrefl k
    · split at h
      · -- nobody has the pid: the entry is dropped
        exact htrans _ _ _ (hdrop k prev _ cur) (ih h)
      · split at h
        · -- the entry is due: its process is woken
          obtain ⟨k₁, hentry, hrest⟩ := Option.bind_eq_some_iff.mp h
          obtain ⟨⟨v, c⟩, hun, hret⟩ := Option.bind_eq_some_iff.mp hentry
          obtain rfl := Option.some.inj hret
          exact htrans _ _ _ (hwake k prev _ cur v c hun) (ih hrest)
        · exact ih h

/-- The entry stays in the list. -/
def Stays (k : Kernel) (now e : ℕ) : Prop :=
  foundprocess k.toCore (k.pid (k.entryProc e)) ≠ none ∧ now < k.wakeTick e

instance : Decidable (Stays k now e) := inferInstanceAs (Decidable (_ ∧ _))

/-- The entries wake the process. -/
def DueWakes (k : Kernel) (now : ℕ) (B : List ℕ) (q : ℕ) : Prop :=
  ∃ e ∈ B, k.wakeTick e ≤ now ∧ Wakes k.toCore (k.pid (k.entryProc e)) q

instance : Decidable (DueWakes k now B q) := inferInstanceAs (Decidable (∃ e ∈ B, _))

/-- What taking an entry out leaves of the list. -/
theorem Sleepers.unlink (h : Sleepers k (A ++ e :: B)) :
    Sleepers ((k.unlinkEntry (A.getLast?.getD 0) (k.entryNext e)).freeEntry e) (A ++ B) := by
  refine ⟨h.chain.unlinkAt h.nodup, ?_, fun x hx => ?_⟩
  · exact ((List.sublist_cons_self e B).append_left A).nodup h.nodup
  · have hxe : x ≠ e := fun he => not_mem_of_nodup h.nodup (he ▸ hx)
    have hlive := h.live x (by simp at hx ⊢; tauto)
    simpa [Kernel.freeEntry, Kernel.unlinkEntry, mmFree] using (List.mem_erase_of_ne hxe).mpr hlive

theorem Wakes.found (hr : ReadyInv c L) {pid : ℤ} (h : Wakes c pid q) : foundprocess c pid ≠ none := by
  intro hf
  have hs := h.2.2
  rw [h.2.1, getProcessByPid, hf, hr.null] at hs
  cases hs

/-- Freeing an entry wakes nobody. -/
theorem freeEntry_woke (hr : ReadyInv k.toCore L) (e : ℕ) :
    Woke k.toCore (k.freeEntry e).toCore nobody := by
  have hlive (kind : Kind) (hk : kind ≠ .sleepEntry) : (k.freeEntry e).live kind = k.live kind :=
    Function.update_of_ne hk ..
  refine ⟨rfl, rfl, rfl, rfl, rfl, ⟨L, hr.congr rfl rfl rfl rfl (hlive .node (by simp)) fun p hp => ?_⟩,
    fun _ hq => hq.elim, fun _ _ => rfl⟩
  rw [hlive .record (by simp)]
  exact hr.records p hp

/-- The rest of the list after an entry has woken `w`. -/
theorem Woke.dueWakes {w : ℕ → Prop} (hw : Woke k.toCore k'.toCore w) (he : k'.entryProc = k.entryProc)
    (ht : k'.wakeTick = k.wakeTick) : w q ∨ DueWakes k' now B q ↔ w q ∨ DueWakes k now B q := by
  by_cases hq : w q
  · simp [hq]
  · refine or_congr_right (exists_congr fun e => and_congr_right fun _ => ?_)
    rw [ht, he, hw.pid, hw.wakes_iff]
    simp [hq]

theorem Woke.stays {w : ℕ → Prop} (hw : Woke k.toCore k'.toCore w) (he : k'.entryProc = k.entryProc)
    (ht : k'.wakeTick = k.wakeTick) : Stays k' now e ↔ Stays k now e := by
  unfold Stays
  rw [ht, he, hw.pid, hw.foundprocess]

theorem sleepTick_spec (h : Sleepers k (A ++ B)) (hr : ReadyInv k.toCore L) (hfuel : B.length < fuel)
    (hrun : Kernel.sleepTick now fuel (A.getLast?.getD 0) (B.head?.getD 0) k = some k') :
    ∃ c' s, k' = { k with toCore := c', toSleepQueue := s } ∧ s.entryProc = k.entryProc ∧
      s.wakeTick = k.wakeTick ∧ Woke k.toCore c' (DueWakes k now B) ∧
      (∀ kind, kind ≠ .node → kind ≠ .sleepEntry → c'.live kind = k.live kind) ∧
      Sleepers k' (A ++ B.filter (Stays k now)) := by
  induction B generalizing k A L fuel with
  | nil =>
    obtain ⟨fuel, rfl⟩ := Nat.exists_eq_succ_of_ne_zero (Nat.ne_of_gt hfuel)
    obtain rfl : k = k' := by simpa [Kernel.sleepTick] using hrun
    exact ⟨k.toCore, k.toSleepQueue, rfl, rfl, rfl, (Woke.refl hr).congr fun q => by simp [DueWakes, nobody],
      fun _ _ _ => rfl, by simpa using h⟩
  | cons e B ih =>
    obtain ⟨fuel, rfl⟩ := Nat.exists_eq_succ_of_ne_zero (Nat.ne_of_gt (Nat.zero_lt_of_lt hfuel))
    have hlen : B.length < fuel := by
      simp only [List.length_cons] at hfuel
      omega
    have he0 : e ≠ 0 := by
      rintro rfl
      exact h.chain.null_notMem (by simp)
    have hnext : k.entryNext e = B.head?.getD 0 := h.chain.next_eq
    -- the entry is taken out, and `w` has been woken
    have hout (c₁ : Core) (w : ℕ → Prop) (hw : Woke k.toCore c₁ w)
        (hlive : ∀ kind, kind ≠ .node → c₁.live kind = k.live kind) (hgo : ¬Stays k now e)
        (hwe : ∀ q, w q ↔ k.wakeTick e ≤ now ∧ Wakes k.toCore (k.pid (k.entryProc e)) q)
        (hrest : Kernel.sleepTick now fuel (A.getLast?.getD 0) (B.head?.getD 0)
          ({ k.unlinkEntry (A.getLast?.getD 0) (k.entryNext e) with toCore := c₁ }.freeEntry e) = some k') :
        ∃ c' s, k' = { k with toCore := c', toSleepQueue := s } ∧ s.entryProc = k.entryProc ∧
          s.wakeTick = k.wakeTick ∧ Woke k.toCore c' (DueWakes k now (e :: B)) ∧
          (∀ kind, kind ≠ .node → kind ≠ .sleepEntry → c'.live kind = k.live kind) ∧
          Sleepers k' (A ++ (e :: B).filter (Stays k now)) := by
      obtain ⟨L₁, hr₁⟩ := hw.ready
      set k₁ := { k.unlinkEntry (A.getLast?.getD 0) (k.entryNext e) with toCore := c₁ }.freeEntry e with hk₁
      have hfree : Woke c₁ k₁.toCore nobody :=
        freeEntry_woke (k := { k.unlinkEntry (A.getLast?.getD 0) (k.entryNext e) with toCore := c₁ }) hr₁ e
      have hw₁ : Woke k.toCore k₁.toCore w := (hw.trans hfree).congr fun q => by simp [nobody]
      have hsleep : Sleepers k₁ (A ++ B) := by
        have hsame : k₁.live .sleepEntry =
            ((k.unlinkEntry (A.getLast?.getD 0) (k.entryNext e)).freeEntry e).live .sleepEntry := by
          simp [hk₁, Kernel.freeEntry, Kernel.unlinkEntry, mmFree, hlive]
        exact h.unlink.congr rfl hsame
      obtain ⟨L₂, hr₂⟩ := hw₁.ready
      obtain ⟨c', s, rfl, hproc, htick, hwoke, hlive', hsleep'⟩ := ih hsleep hr₂ hlen hrest
      refine ⟨c', s, rfl, hproc, htick, (hw₁.trans hwoke).congr fun q => ?_, fun kind hn hs => ?_, ?_⟩
      · rw [hw₁.dueWakes rfl rfl, hwe]
        simp [DueWakes]
      · rw [hlive' kind hn hs]
        have hsame : k₁.live kind = c₁.live kind := Function.update_of_ne hs ..
        rw [hsame, hlive kind hn]
      · have hfilter : (e :: B).filter (Stays k now) = B.filter (Stays k₁ now) := by
          rw [List.filter_cons_of_neg (by simpa using hgo)]
          exact List.filter_congr fun x _ => by simp [hw₁.stays rfl rfl]
        rw [hfilter]
        exact hsleep'
    simp only [List.head?_cons, Option.getD_some, Kernel.sleepTick, he0, if_false] at hrun
    by_cases horphan : foundprocess k.toCore (k.pid (k.entryProc e)) = none
    · simp only [horphan, if_true, hnext] at hrun
      refine hout k.toCore nobody (Woke.refl hr) (fun _ _ => rfl) (fun hs => hs.1 horphan) (fun q => ?_) ?_
      · refine ⟨fun hq => hq.elim, fun hq => absurd horphan (Wakes.found hr hq.2)⟩
      · rw [hnext]
        exact hrun
    · simp only [horphan, if_false] at hrun
      by_cases hdue : k.wakeTick e ≤ now
      · simp only [hdue, if_true, hnext] at hrun
        obtain ⟨k₂, hwake, hrun⟩ := Option.bind_eq_some_iff.mp hrun
        obtain ⟨⟨v, c₁⟩, hun, hret⟩ := Option.bind_eq_some_iff.mp hwake
        obtain rfl := Option.some.inj hret
        obtain ⟨hw, hlive⟩ := unblockProcess_woke hr hun
        refine hout c₁ (Wakes k.toCore (k.pid (k.entryProc e))) hw hlive
          (fun hs => absurd hs.2 (not_lt.mpr hdue)) (fun q => ?_) ?_
        · simp [hdue]
        · rw [hnext]
          exact hrun
      · simp only [hdue, if_false, hnext] at hrun
        have hstay : Stays k now e := ⟨horphan, not_le.mp hdue⟩
        have hcons : Sleepers k ((A ++ [e]) ++ B) := by simpa using h
        have hrun' : Kernel.sleepTick now fuel ((A ++ [e]).getLast?.getD 0) (B.head?.getD 0) k = some k' := by
          simpa using hrun
        obtain ⟨c', s, rfl, hproc, htick, hwoke, hlive', hsleep'⟩ := ih hcons hr hlen hrun'
        refine ⟨c', s, rfl, hproc, htick, hwoke.congr fun q => ?_, hlive', ?_⟩
        · simp [DueWakes, hdue]
        · rw [List.filter_cons_of_pos (by simpa using hstay)]
          simpa using hsleep'

end BareKernel

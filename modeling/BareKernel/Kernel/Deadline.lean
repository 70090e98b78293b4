import BareKernel.Kernel.AnyRun
import BareKernel.Kernel.Inside
import BareKernel.Kernel.SleepFrame
import BareKernel.Process.Requests

/-! The deadlines of sleepers. The tick counter has 64 bits, but `ticks_elapsed` returns
an `int`, so the deadline and the count that it is compared with are computed from the
low 32 bits of the counter, widened with their sign. -/

namespace BareKernel

open Function (update)
open Process Links Machine

variable {k k' : Kernel} {c c' : Core} {m m' m₁ : Machine} {a : Action} {L A B E : List ℕ}
  {p e n t i j now fuel : ℕ} {pid r : ℤ}

/-! ### Tick counts -/

/-- The count that the handler compares with when the counter is at `t`. -/
def tickCount (t : ℕ) : ℕ := ((t : ℤ).bmod (2 ^ 32) % 2 ^ 64).toNat

/-- The deadline of who goes to sleep for `n` ticks at `t`. -/
def deadline (t n : ℕ) : ℕ := (((t : ℤ).bmod (2 ^ 32) + n) % 2 ^ 64).toNat

/-- The deadline has come at the tick `j`. -/
def DueAt (t n j : ℕ) : Prop := deadline t n ≤ tickCount ((t + j) % 2 ^ 64)

instance (t n j : ℕ) : Decidable (DueAt t n j) := inferInstanceAs (Decidable (_ ≤ _))

/-- The first tick at which the deadline has come is the first one whose count is at
least `t + n`. -/
def OnTime (t n : ℕ) : Prop :=
  ∀ j, (∀ i < j, ¬DueAt t n (i + 1)) → (DueAt t n (j + 1) ↔ t + n ≤ (t + (j + 1)) % 2 ^ 64)

/-- Between `t` and `t + n` the low 32 bits neither get to `2 ^ 31` nor wrap around, up
to one tick at the ends. -/
structure StaysNarrow (t n : ℕ) : Prop where
  low : t % 2 ^ 32 < 2 ^ 31 → t % 2 ^ 32 + n ≤ 2 ^ 31
  high : 2 ^ 31 ≤ t % 2 ^ 32 → t % 2 ^ 32 + 1 < 2 ^ 32 → t % 2 ^ 32 + n < 2 ^ 32
  last : t % 2 ^ 32 + 1 = 2 ^ 32 → 1 ≤ n ∧ n ≤ 2 ^ 31 + 1

theorem tickCount_eq (t : ℕ) :
    tickCount t = if t % 2 ^ 32 < 2 ^ 31 then t % 2 ^ 32 else t % 2 ^ 32 + (2 ^ 64 - 2 ^ 32) := by
  unfold tickCount
  rw [Int.bmod_def]
  split <;> split <;> omega

theorem deadline_eq (t n : ℕ) : deadline t n = (tickCount t + n) % 2 ^ 64 := by
  unfold deadline tickCount
  omega

theorem due_iff : DueAt t n j ↔ (tickCount t + n) % 2 ^ 64 ≤ tickCount ((t + j) % 2 ^ 64) := by
  rw [DueAt, deadline_eq]

theorem StaysNarrow.due_iff (h : StaysNarrow t n) (hsum : t + n < 2 ^ 64) (hj : 1 ≤ j) (hle : j ≤ max n 1) :
    DueAt t n j ↔ t + n ≤ (t + j) % 2 ^ 64 := by
  obtain ⟨hlow, hhigh, hlast⟩ := h
  rw [BareKernel.due_iff, tickCount_eq, tickCount_eq]
  split <;> split <;> omega

theorem StaysNarrow.onTime (h : StaysNarrow t n) (hsum : t + n < 2 ^ 64) : OnTime t n := by
  intro j hbefore
  by_cases hj : j + 1 ≤ max n 1
  · exact h.due_iff hsum (by omega) hj
  · have hlast := h.last
    have hdue : DueAt t n (max n 1) := (h.due_iff hsum (by omega) le_rfl).mpr (by omega)
    have hnot := hbefore (max n 1 - 1) (by omega)
    rw [Nat.sub_add_cancel (by omega)] at hnot
    exact absurd hdue hnot

/-- Nobody who is woken on time is woken earlier. -/
theorem OnTime.not_due (h : OnTime t n) (hsum : t + n < 2 ^ 64) (h1 : 1 ≤ i) (hi : i < n) : ¬DueAt t n i := by
  induction i using Nat.strong_induction_on with
  | _ i ih =>
    have hbefore : ∀ j < i - 1, ¬DueAt t n (j + 1) := fun j hj => ih (j + 1) (by omega) (by omega) (by omega)
    have hon := h (i - 1) hbefore
    rw [Nat.sub_add_cancel h1] at hon
    rw [hon]
    omega

/-- Without a tick to wait for, the deadline is the largest count when the low bits are
all set: it has passed at the next tick, but comes only when the counter wraps around. -/
theorem OnTime.last_ne_zero (h : OnTime t n) (hsum : t + n < 2 ^ 64) (hlast : t % 2 ^ 32 + 1 = 2 ^ 32) : n ≠ 0 := by
  rintro rfl
  by_cases hwrap : t + 1 = 2 ^ 64
  · have hbefore : ∀ i < 2 ^ 32 - 1, ¬DueAt t 0 (i + 1) := by
      intro i hi
      rw [due_iff, tickCount_eq, tickCount_eq]
      split <;> split <;> omega
    have hon := h (2 ^ 32 - 1) hbefore
    rw [due_iff, tickCount_eq, tickCount_eq] at hon
    split at hon <;> split at hon <;> omega
  · have hon := h 0 (by omega)
    rw [due_iff, tickCount_eq, tickCount_eq] at hon
    split at hon <;> split at hon <;> omega

theorem OnTime.staysNarrow (h : OnTime t n) (hsum : t + n < 2 ^ 64) : StaysNarrow t n := by
  have hnot (i : ℕ) (h1 : 1 ≤ i) (hi : i < n) : ¬(tickCount t + n) % 2 ^ 64 ≤ tickCount ((t + i) % 2 ^ 64) := by
    rw [← due_iff]
    exact h.not_due hsum h1 hi
  simp only [tickCount_eq] at hnot
  refine ⟨fun hlow => ?_, fun hhigh hlast => ?_, fun hlast => ⟨?_, ?_⟩⟩
  · -- when the bits get to `2 ^ 31` the count is larger than most deadlines
    by_contra hn
    by_cases hfar : t % 2 ^ 32 + n ≤ 2 ^ 64 - 2 ^ 31
    · apply hnot (2 ^ 31 - t % 2 ^ 32) (by omega) (by omega)
      split <;> split <;> omega
    · apply hnot (n - (2 ^ 64 - 2 ^ 32)) (by omega) (by omega)
      split <;> split <;> omega
  · -- the deadline wraps around, so it comes at the next tick
    by_contra hn
    apply hnot 1 (by omega) (by omega)
    split <;> split <;> omega
  · have hpos := h.last_ne_zero hsum hlast
    omega
  · by_contra hn
    by_cases hfar : n - 1 ≤ 2 ^ 64 - 2 ^ 31
    · apply hnot (2 ^ 31 + 1) (by omega) (by omega)
      split <;> split <;> omega
    · apply hnot (n - (2 ^ 64 - 2 ^ 32)) (by omega) (by omega)
      split <;> split <;> omega

theorem onTime_iff (hsum : t + n < 2 ^ 64) : OnTime t n ↔ StaysNarrow t n :=
  ⟨fun h => h.staysNarrow hsum, fun h => h.onTime hsum⟩

/-! ### Whom the handler wakes -/

/-- Whatever pid is woken, a process of the table is made ready exactly by its own. -/
theorem unblockProcess_state (hinj : ∀ q, InTable c q → c.pid q = c.pid p → q = p) (hp : InTable c p)
    (h1 : c.pid p ≠ 1) (hs : c.state p = .blocked ∨ c.state p = .ready)
    (h : Process.unblockProcess c pid = some (r, c')) :
    c'.state p = if pid = c.pid p then .ready else c.state p := by
  rcases eq_or_ne pid (c.pid p) with rfl | hne
  · rw [if_pos rfl]
    cases hf : foundprocess c (c.pid p) with
    | none => exact absurd rfl (foundprocess_none hf hp)
    | some i =>
      obtain ⟨-, hin, hpid⟩ := foundprocess_some hf
      obtain rfl := hinj _ hin hpid
      by_cases hb : c.state (c.processesList i) = .blocked
      · rw [(unblockProcess_ready h h1 hf hb).records]
        exact Function.update_self ..
      · rcases unblockProcess_cases h with rfl | ⟨j, hj, hb', -⟩
        · exact hs.resolve_left hb
        · obtain rfl := Option.some.inj (hf.symm.trans hj)
          exact absurd hb' hb
  · rw [if_neg hne]
    rcases unblockProcess_cases h with rfl | ⟨i, hf, -, hedit⟩
    · rfl
    · have hother : p ≠ c.processesList i := by
        rintro rfl
        exact hne (foundprocess_some hf).2.2.symm
      rw [hedit.records]
      exact Function.update_of_ne hother ..

/-- One of the entries is due and names the process. -/
def NamedDue (k : Kernel) (p now : ℕ) (B : List ℕ) : Prop := ∃ x ∈ B, k.wakeTick x ≤ now ∧ k.entryPid x = k.pid p

instance (k : Kernel) (p now : ℕ) (B : List ℕ) : Decidable (NamedDue k p now B) :=
  inferInstanceAs (Decidable (∃ x ∈ B, _))

theorem namedDue_cons : NamedDue k p now (e :: B) ↔
    (k.wakeTick e ≤ now ∧ k.entryPid e = k.pid p) ∨ NamedDue k p now B := by simp [NamedDue]

theorem SameEntryLookups.namedDue (h : SameEntryLookups k k') : NamedDue k' p now B ↔ NamedDue k p now B := by
  unfold NamedDue
  rw [h.wakeTick, h.entryPid, h.pid]

/-- A process that the handler finds blocked or ready, and that `unblock_process` wakes. -/
structure MayWake (c : Core) (p : ℕ) : Prop where
  own : ∀ q, InTable c q → c.pid q = c.pid p → q = p
  inTable : InTable c p
  pid : c.pid p ≠ 1
  state : c.state p = .blocked ∨ c.state p = .ready

theorem MayWake.congr (h : MayWake k.toCore p) (hsame : SameEntryLookups k k')
    (hs : k'.state p = k.state p ∨ k'.state p = .ready) : MayWake k'.toCore p := by
  have hin (q : ℕ) : InTable k'.toCore q ↔ InTable k.toCore q := inTable_congr hsame.processesList
  refine ⟨fun q hq hpid => ?_, (hin p).mpr h.inTable, ?_, ?_⟩
  · rw [hsame.pid] at hpid
    exact h.own q ((hin q).mp hq) hpid
  · rw [hsame.pid]
    exact h.pid
  · rcases hs with hs | hs
    · rw [hs]
      exact h.state
    · exact Or.inr hs

/-- The handler makes a sleeping process ready exactly when an entry that names it is due. -/
theorem sleepTick_state (h : Sleepers k (A ++ B)) (hp : MayWake k.toCore p)
    (hrun : Kernel.sleepTick now fuel (A.getLast?.getD 0) (B.head?.getD 0) k = some k') :
    k'.state p = if NamedDue k p now B then .ready else k.state p := by
  induction B generalizing k A fuel with
  | nil =>
    cases fuel with
    | zero => cases hrun
    | succ fuel =>
      obtain rfl : k = k' := by simpa [Kernel.sleepTick] using hrun
      simp [NamedDue]
  | cons e B ih =>
    cases fuel with
    | zero => cases hrun
    | succ fuel =>
      have he0 : e ≠ 0 := by
        rintro rfl
        exact h.chain.null_notMem (by simp)
      have hnext : k.entryNext e = B.head?.getD 0 := h.chain.next_eq
      simp only [List.head?_cons, Option.getD_some, Kernel.sleepTick, he0, if_false] at hrun
      set k₁ := k.unlinkEntry (A.getLast?.getD 0) (k.entryNext e) with hk₁
      have hsame₁ : SameEntryLookups k k₁ := unlinkEntry_same k ..
      by_cases hnone : foundprocess k.toCore (k.pid (k.entryProc e)) = none
      · -- nobody has the pid, so the entry names another process
        simp only [hnone, if_true] at hrun
        have hother : k.entryPid e ≠ k.pid p := fun hpid => foundprocess_none hnone hp.inTable hpid.symm
        have hsame := hsame₁.trans (freeEntry_same k₁ e)
        rw [hnext] at hrun
        rw [ih h.unlink (hp.congr hsame (Or.inl rfl)) hrun]
        simp only [namedDue_cons, hother, and_false, false_or]
        rfl
      · simp only [hnone, if_false] at hrun
        by_cases hdue : k.wakeTick e ≤ now
        · simp only [hdue, if_true] at hrun
          obtain ⟨k₂, hwake, hrun⟩ := Option.bind_eq_some_iff.mp hrun
          obtain ⟨hsame₂, hqueue, hlive⟩ := wakeEntry_same hwake
          have hsame := (hsame₁.trans hsame₂).trans (freeEntry_same k₂ e)
          have hsleep : Sleepers (k₂.freeEntry e) (A ++ B) := by
            refine h.unlink.congr hqueue ?_
            rw [freeEntry_live, freeEntry_live, hlive]
          have hstate : (k₂.freeEntry e).state p = if k.entryPid e = k.pid p then .ready else k.state p := by
            obtain ⟨⟨v, c⟩, hun, hret⟩ := Option.bind_eq_some_iff.mp hwake
            obtain rfl := Option.some.inj hret
            have hun' : Process.unblockProcess k.toCore (k.entryPid e) = some (v, c) := hun
            have hwoken := unblockProcess_state hp.own hp.inTable hp.pid hp.state hun'
            exact hwoken
          rw [hnext] at hrun
          rw [ih hsleep (hp.congr hsame ?_) hrun, hstate]
          · simp only [namedDue_cons, hdue, true_and, hsame.namedDue]
            by_cases hself : k.entryPid e = k.pid p <;> simp [hself]
          · rw [hstate]
            split
            · exact Or.inr rfl
            · exact Or.inl rfl
        · simp only [hdue, if_false] at hrun
          have hcons : Sleepers k ((A ++ [e]) ++ B) := by simpa using h
          rw [hnext] at hrun
          rw [ih hcons hp (by simpa using hrun)]
          simp only [namedDue_cons, hdue, false_and, false_or]

/-- The processes that the handler wakes at the entries `B`. -/
def dueProcesses (k : Kernel) (now : ℕ) (B : List ℕ) : Set ℕ :=
  {q | ∃ e ∈ B, k.wakeTick e ≤ now ∧ Wakes k.toCore (k.entryPid e) q}

theorem dueProcesses_finite : (dueProcesses k now B).Finite := by
  refine (List.finite_toSet (B.map fun e => getProcessByPid k.toCore (k.entryPid e))).subset ?_
  rintro q ⟨e, he, -, hw⟩
  exact List.mem_map.mpr ⟨e, he, hw.2.1.symm⟩

/-- Those of the first entry, and then the others. -/
theorem dueProcesses_cons : dueProcesses k now (e :: B) =
    {q | k.wakeTick e ≤ now ∧ Wakes k.toCore (k.entryPid e) q} ∪ dueProcesses k now B := by
  refine Set.ext fun q => ⟨?_, ?_⟩
  · rintro ⟨x, hx, hw⟩
    rcases List.mem_cons.mp hx with rfl | hx
    · exact Or.inl hw
    · exact Or.inr ⟨x, hx, hw⟩
  · rintro (hw | ⟨x, hx, hw⟩)
    · exact ⟨e, List.mem_cons_self, hw⟩
    · exact ⟨x, List.mem_cons_of_mem e hx, hw⟩

theorem SameEntryLookups.dueProcesses {w : ℕ → Prop} (h : SameEntryLookups k k') (hw : Roused k.toCore k'.toCore w) :
    dueProcesses k' now B = dueProcesses k now B \ {q | w q} := by
  refine Set.ext fun q => ⟨?_, ?_⟩
  · rintro ⟨e, he, hdue, hwake⟩
    rw [h.wakeTick] at hdue
    rw [h.entryPid, hw.wakes_iff] at hwake
    exact ⟨⟨e, he, hdue, hwake.1⟩, hwake.2⟩
  · rintro ⟨⟨e, he, hdue, hwake⟩, hno⟩
    refine ⟨e, he, by rwa [h.wakeTick], ?_⟩
    rw [h.entryPid, hw.wakes_iff]
    exact ⟨hwake, hno⟩

theorem serve_freeEntry (k : Kernel) (e j : ℕ) : ((k.freeEntry e).toMemory.serve (List.replicate j .node)).isSome =
    (k.toMemory.serve (List.replicate j .node)).isSome := by
  have hanswers : (k.freeEntry e).toMemory.answers = k.toMemory.answers := rfl
  have hnode : (k.freeEntry e).toMemory.live .node = k.toMemory.live .node := by simp [Kernel.freeEntry, mmFree]
  exact serve_replicate_isSome hanswers hnode j

theorem wakeEntry_serve (hL : RingInv k.toCore L) : (k.wakeEntry e).map (fun k => k.toMemory) =
    k.toMemory.serve (List.replicate {q | Wakes k.toCore (k.entryPid e) q}.ncard .node) := by
  rw [← unblockProcess_serve hL, Kernel.wakeEntry, Option.bind_eq_bind]
  show ((Process.unblockProcess k.toCore (k.entryPid e)).bind _).map _ = _
  cases Process.unblockProcess k.toCore (k.entryPid e) with
  | none => rfl
  | some r => rfl

theorem wakeEntry_roused (hL : RingInv k.toCore L) (h : k.wakeEntry e = some k') :
    (∃ L', RingInv k'.toCore L') ∧ Roused k.toCore k'.toCore (Wakes k.toCore (k.entryPid e)) := by
  obtain ⟨⟨v, c⟩, hun, hret⟩ := Option.bind_eq_some_iff.mp h
  obtain rfl := Option.some.inj hret
  obtain ⟨L', hL', -, -⟩ := hL.unblock hun
  exact ⟨⟨L', hL'⟩, unblockProcess_roused hL hun⟩

/-- The loop of the handler returns when there is a node for each process that it wakes. -/
theorem sleepTick_isSome (h : Sleepers k (A ++ B)) (hL : RingInv k.toCore L) (hfuel : B.length < fuel) :
    (Kernel.sleepTick now fuel (A.getLast?.getD 0) (B.head?.getD 0) k).isSome =
      (k.toMemory.serve (List.replicate (dueProcesses k now B).ncard .node)).isSome := by
  induction B generalizing k A L fuel with
  | nil =>
    obtain ⟨fuel, rfl⟩ := Nat.exists_eq_succ_of_ne_zero (Nat.ne_of_gt hfuel)
    simp [Kernel.sleepTick, dueProcesses, Memory.serve]
  | cons e B ih =>
    obtain ⟨fuel, rfl⟩ := Nat.exists_eq_succ_of_ne_zero (Nat.ne_of_gt (Nat.zero_lt_of_lt hfuel))
    have hlen : B.length < fuel := Nat.lt_of_succ_lt_succ hfuel
    have he0 : e ≠ 0 := by
      rintro rfl
      exact h.chain.null_notMem (by simp)
    have hnext : k.entryNext e = B.head?.getD 0 := h.chain.next_eq
    simp only [List.head?_cons, Option.getD_some, Kernel.sleepTick, he0, if_false]
    set k₁ := k.unlinkEntry (A.getLast?.getD 0) (k.entryNext e) with hk₁
    have hsame₁ : SameEntryLookups k k₁ := unlinkEntry_same k ..
    have hL₁ : RingInv k₁.toCore L := hL
    rw [dueProcesses_cons]
    set first : Set ℕ := {q | k.wakeTick e ≤ now ∧ Wakes k.toCore (k.entryPid e) q} with hfirst
    by_cases hnone : foundprocess k.toCore (k.pid (k.entryProc e)) = none
    · -- the pid of nobody wakes nobody
      have hnobody : first = ∅ := by
        apply Set.eq_empty_of_forall_notMem
        rintro q ⟨-, -, rfl, hb⟩
        rw [getProcessByPid, show foundprocess k.toCore (k.entryPid e) = none from hnone, hL.null] at hb
        cases hb
      simp only [hnone, if_true]
      rw [hnext, hnobody, Set.empty_union, ih h.unlink (freeEntry_shift hL₁ e).ring hlen, serve_freeEntry]
      rfl
    · simp only [hnone, if_false]
      by_cases hdue : k.wakeTick e ≤ now
      · have hwakes : first = {q | Wakes k₁.toCore (k₁.entryPid e) q} := Set.ext fun q => and_iff_right hdue
        have hsub : first ⊆ first ∪ dueProcesses k now B := Set.subset_union_left
        have hfin : (first ∪ dueProcesses k now B).Finite := dueProcesses_cons ▸ dueProcesses_finite
        rw [← Set.ncard_sdiff_add_ncard_of_subset hsub hfin, Nat.add_comm, ← List.replicate_append_replicate,
          Memory.serve_append, Set.union_sdiff_left, hwakes]
        show _ = ((k₁.toMemory.serve _).bind _).isSome
        rw [← wakeEntry_serve hL₁]
        simp only [hdue, if_true]
        cases hwake : k₁.wakeEntry e with
        | none => rfl
        | some k₂ =>
          obtain ⟨⟨L', hL'⟩, hroused⟩ := wakeEntry_roused hL₁ hwake
          obtain ⟨hsame₂, hqueue, hlive⟩ := wakeEntry_same hwake
          have hsleep : Sleepers (k₂.freeEntry e) (A ++ B) := by
            refine h.unlink.congr hqueue ?_
            rw [freeEntry_live, freeEntry_live, hlive]
          have hleft : dueProcesses k₂ now B = dueProcesses k now B \ {q | Wakes k₁.toCore (k₁.entryPid e) q} :=
            (hsame₁.trans hsame₂).dueProcesses hroused
          rw [Option.bind_eq_bind, Option.bind_some, hnext, ih hsleep (freeEntry_shift hL' e).ring hlen,
            serve_freeEntry, Option.map_some, Option.bind_some, ← hleft]
          rfl
      · have hnobody : first = ∅ := Set.eq_empty_of_forall_notMem fun q hq => hdue hq.1
        have hcons : Sleepers k ((A ++ [e]) ++ B) := by simpa using h
        have hrest := ih hcons hL hlen
        rw [List.getLast?_concat, Option.getD_some] at hrest
        simp only [hdue, if_false]
        rw [hnext, hnobody, Set.empty_union, hrest]

/-! ### Falling asleep -/

theorem blockProcess_blocked (hown : ∀ q, InTable c q → c.pid q = c.pid p → q = p) (hp : InTable c p)
    (hs : c.state p = .running ∨ c.state p = .ready) (h : Process.blockProcess c (c.pid p) = some (r, c')) :
    c'.state p = .blocked := by
  rcases blockProcess_cases h with ⟨-, hnone | hidle⟩ | ⟨i, hf, hrem⟩
  · exact absurd rfl (foundprocess_none hnone hp)
  · have hget : getProcessByPid c (c.pid p) = p := by
      rcases getProcessByPid_spec c (c.pid p) with ⟨-, hno⟩ | ⟨hin, hpid⟩
      · exact absurd rfl (hno p hp)
      · exact hown _ hin hpid
    rw [hget] at hidle
    rcases hs with hs | hs
    · exact absurd hs hidle.1
    · exact absurd hs hidle.2
  · obtain ⟨-, hin, hpid⟩ := foundprocess_some hf
    obtain rfl := hown _ hin hpid
    rw [(removeFromReadyList_edit hrem).records]
    exact Function.update_self ..

/-- The scheduler blocks nobody and wakes nobody. -/
theorem scheduler_blocked_iff (h : RingInv c L) {sp sp' : StackPtr} (hrun : scheduler c sp = some (sp', c')) :
    c'.state p = .blocked ↔ c.state p = .blocked := by
  by_cases hne : c.readyList = 0
  · have hself : scheduler c sp = some (sp, c) := by rw [scheduler, if_pos hne]
    obtain ⟨-, rfl⟩ : sp = sp' ∧ c = c' := by simpa using hself.symm.trans hrun
    rfl
  · obtain ⟨c₁, hsched, -, -, -, -, hnext, -, hstate, -⟩ := h.scheduler hne sp
    obtain ⟨-, rfl⟩ : _ = sp' ∧ c₁ = c' := by simpa using hsched.symm.trans hrun
    have hruns : c.state c₁.currentProcess = .ready ∨ c.state c₁.currentProcess = .running := by
      rcases hnext with ⟨hmem, -⟩ | ⟨hcur, -, hrunning⟩
      · exact (h.procs _ hmem).2.imp_right And.right
      · rw [hcur]
        exact Or.inr hrunning
    rw [hstate]
    rcases eq_or_ne p c₁.currentProcess with rfl | hp
    · rcases hruns with hs | hs <;> simp [hs]
    · rw [Function.update_of_ne hp]
      split
      · rename_i hcur
        rcases eq_or_ne p c.currentProcess with rfl | hp'
        · simp [hcur]
        · rw [Function.update_of_ne hp']
      · rfl

/-- The entry `e` of the list is that of `p` and due at `wake`. -/
structure Listed (k : Kernel) (e p wake : ℕ) : Prop where
  listed : ∃ E, Sleepers k E ∧ e ∈ E
  proc : k.entryProc e = p
  wake : k.wakeTick e = wake

variable {wake : ℕ} {call : Call} {again : Bool}

theorem Listed.congr (h : Listed k e p wake) (hqueue : k'.toSleepQueue = k.toSleepQueue)
    (hblocks : SameSleepBlocks k.toCore k'.toCore) : Listed k' e p wake := by
  obtain ⟨E, hE, he⟩ := h.listed
  refine ⟨⟨E, hE.congr hqueue hblocks, he⟩, ?_, ?_⟩
  · rw [show k'.entryProc = k.entryProc from congrArg SleepQueue.entryProc hqueue]
    exact h.proc
  · rw [show k'.wakeTick = k.wakeTick from congrArg SleepQueue.wakeTick hqueue]
    exact h.wake

/-- Other entries that are added leave an entry in the list. -/
theorem Listed.after_add {q w : ℕ} (h : Listed k e p wake) (hadd : k.sleepQueueAdd q w = some k') :
    Listed k' e p wake := by
  obtain ⟨E, hE, he⟩ := h.listed
  obtain ⟨answers, live, s, hadd', -, hlist⟩ := sleepQueueAdd_spec hE q w
  obtain rfl := Option.some.inj (hadd'.symm.trans hadd)
  rcases hlist with ⟨-, rfl, rfl⟩ | ⟨x, A, B, -, -, hfresh, rfl, -, -, hproc, hwake, hnew⟩
  · exact h.congr rfl rfl
  · have hex : e ≠ x := by
      rintro rfl
      exact hfresh he
    refine ⟨⟨_, hnew, ?_⟩, ?_, ?_⟩
    · simp only [List.mem_append, List.mem_cons] at he ⊢
      tauto
    · show s.entryProc e = p
      rw [hproc, Function.update_of_ne hex]
      exact h.proc
    · show s.wakeTick e = wake
      rw [hwake, Function.update_of_ne hex]
      exact h.wake

/-- Only a tick takes entries out. -/
theorem Listed.after_call (h : Listed k e p wake) (hc : call ≠ .tick) (hrun : k.call call = some (r, k', again)) :
    Listed k' e p wake := by
  by_cases hs : call.sleeps = false
  · exact h.congr ((call_others hrun).2.1 hs) (call_sleepBlocks hrun hs)
  · cases call with
    | tick => exact absurd rfl hc
    | sysSleep n =>
      rcases sysSleep_cases hrun with ⟨-, rfl, -⟩ | ⟨-, -, k₁, v, c, hadd, hblock, rfl⟩
      · exact h
      · exact (h.after_add hadd).congr rfl (blockProcess_sleepBlocks hblock)
    | _ => exact absurd rfl hs

/-- An entry that is not due stays while its process is in the table. -/
theorem Listed.after_tick (h : Listed k e p wake) (hp : InTable k.toCore p) (hlater : k.tickNow < wake)
    (hrun : k.timerHandler = some k') : Listed k' e p wake := by
  obtain ⟨E, hE, he⟩ := h.listed
  obtain ⟨calls, hdone⟩ := timerHandler_done hE hrun
  have hpresent : k.Present e := by
    obtain ⟨h0, i, hi, rfl⟩ := hp
    exact ⟨i, hi, h0, by rw [Kernel.entryPid, h.proc]⟩
  refine ⟨⟨_, hdone.left, ?_⟩, ?_, ?_⟩
  · refine List.mem_filter.mpr ⟨he, decide_eq_true ⟨hpresent, ?_⟩⟩
    show k.tickNow < k.wakeTick e
    rw [h.wake]
    exact hlater
  · rw [hdone.same.1]
    exact h.proc
  · rw [hdone.same.2]
    exact h.wake

/-- `p`, the current process, calls `sys_sleep(n)` and gets the entry `e`. The machine is one that a
run reaches, with the tick counter at any value. -/
structure FallsAsleep (m : Machine) (a : Action) (n e : ℕ) (m' : Machine) : Prop where
  reached : ∃ ticks, boot.Reach (fun _ _ => True) { m with ticks := ticks }
  call : a.call = .sysSleep n
  inTable : InTable m.toCore m.currentProcess
  running : m.state m.currentProcess = .running
  pid : m.pid m.currentProcess ≠ 1
  entry : (mmMalloc (m.before a).toCore .sleepEntry).1 = e
  allocated : e ≠ 0
  step : m.step a = some m'

/-- The process `p` that fell asleep at `m₁` has slept through `j` ticks: it has stayed in the table and blocked. -/
inductive Sleeps (m₁ : Machine) (p : ℕ) : ℕ → Machine → Prop where
  | start : Sleeps m₁ p 0 m₁
  | call {j : ℕ} {m m' : Machine} {a : Action} : Sleeps m₁ p j m → a.call ≠ .tick → m.step a = some m' →
      InTable m'.toCore p → m'.state p = .blocked → Sleeps m₁ p j m'
  | tick {j : ℕ} {m m' : Machine} {a : Action} : Sleeps m₁ p j m → a.call = .tick → m.step a = some m' →
      InTable m'.toCore p → m'.state p = .blocked → Sleeps m₁ p (j + 1) m'

/-- A sleeper, `j` ticks after it fell asleep at `t` for `n` ticks. -/
structure Asleep (m : Machine) (p e t n j : ℕ) : Prop where
  table : TableInv m.toCore
  ring : ∃ L, RingInv m.toCore L
  listed : Listed m.toKernel e p (deadline t n)
  ticks : m.ticks = (t + j) % 2 ^ 64
  inTable : InTable m.toCore p
  blocked : m.state p = .blocked
  pid : m.pid p ≠ 1
  notDue : ∀ i < j, ¬DueAt t n (i + 1)

theorem FallsAsleep.asleep (h : FallsAsleep m a n e m') (ht : m.ticks < 2 ^ 64) :
    Asleep m' m.currentProcess e m.ticks n 0 := by
  obtain ⟨ticks, hreach⟩ := h.reached
  have htable₀ := boot_reach_table hreach
  have htable : TableInv m.toCore := htable₀
  have hring₀ := boot_reach_ring hreach
  have hring : ∃ L, RingInv m.toCore L := hring₀
  obtain ⟨E, hE₀⟩ := boot_reach_sleepers hreach
  have hE : Sleepers (m.before a) E := hE₀.congr rfl rfl
  have hsame : SameTable (m.supplied a) m'.toCore := by
    have hstep := step_table h.step
    rwa [h.call] at hstep
  obtain ⟨r, k, again, hcall, hcases⟩ := step_cases h.step
  rw [h.call] at hcall
  obtain ⟨L', hL'⟩ : ∃ L', RingInv k.toCore L' := by
    obtain ⟨L, hL⟩ := hring
    exact call_ring (show RingInv (m.before a).toCore L from hL.congr rfl rfl rfl rfl) hcall
  rcases sysSleep_cases hcall with ⟨-, -, hnone⟩ | ⟨rfl, -, k₁, v, c, hadd, hblock, rfl⟩
  · exact absurd hnone h.inTable.1
  · obtain ⟨-, cpu, c', hsched, rfl⟩ := hcases.resolve_left (by simp)
    obtain ⟨answers, live, s, hadd', -, ⟨hfail, -⟩ | ⟨e', A, B, he', -, -, -, -, -, hproc, hwake, hnew⟩⟩ :=
      sleepQueueAdd_spec hE m.currentProcess (((m.before a).ticksElapsed + n) % 2 ^ 64).toNat
    · exact absurd (h.entry.symm.trans hfail) h.allocated
    · obtain rfl := Option.some.inj (hadd'.symm.trans hadd)
      obtain rfl : e' = e := he'.symm.trans h.entry
      have hown (q : ℕ) (hq : InTable m.toCore q) (hpid : m.pid q = m.pid m.currentProcess) : q = m.currentProcess :=
        htable.pids.inj _ _ hq h.inTable hpid
      have hblocked : c.state m.currentProcess = .blocked :=
        blockProcess_blocked (c := { m.toCore with answers := answers, live := live }) hown h.inTable
          (Or.inl h.running) hblock
      set k₁ : Kernel := { m.before a with answers := answers, live := live, toSleepQueue := s } with hk₁
      have hlisted : Listed k₁ e' m.currentProcess (deadline m.ticks n) := by
        refine ⟨⟨_, hnew, by simp⟩, ?_, ?_⟩
        · show s.entryProc e' = m.currentProcess
          rw [hproc, Function.update_self]
        · show s.wakeTick e' = deadline m.ticks n
          rw [hwake, Function.update_self]
          rfl
      refine ⟨step_tableInv htable h.step, step_ring hring h.step, ?_, ?_, ?_, ?_, ?_, by simp⟩
      · have hfell : Listed { k₁ with toCore := c } e' m.currentProcess (deadline m.ticks n) :=
          hlisted.congr rfl (blockProcess_sleepBlocks hblock)
        have hblocks : SameSleepBlocks c c' := scheduler_sleepBlocks hsched
        exact hfell.congr rfl hblocks
      · show m.ticks = (m.ticks + 0) % 2 ^ 64
        omega
      · exact hsame.inTable.mpr h.inTable
      · exact (scheduler_blocked_iff hL' hsched).mpr hblocked
      · have hpid := h.pid
        rwa [← show _ = m.pid from hsame.pid] at hpid

/-- A call other than a tick that leaves the sleeper alone. -/
theorem Asleep.after_call (h : Asleep m p e t n j) (hc : a.call ≠ .tick) (hrun : m.step a = some m')
    (hin : InTable m'.toCore p) (hb : m'.state p = .blocked) : Asleep m' p e t n j := by
  have hpid : m'.pid p = m.pid p := step_pid_eq h.table hrun h.inTable
  obtain ⟨r, k, again, hcall, hcases⟩ := step_cases hrun
  have hbefore : Listed { m.toKernel with answers := a.answers } e p (deadline t n) := h.listed.congr rfl rfl
  have hlisted := hbefore.after_call hc hcall
  have hticks : k.ticks = m.ticks := (call_others hcall).2.2 hc
  have hafter : Listed m'.toKernel e p (deadline t n) ∧ m'.ticks = k.ticks := by
    rcases hcases with ⟨-, rfl⟩ | ⟨-, cpu, c, hsched, rfl⟩
    · exact ⟨hlisted, rfl⟩
    · exact ⟨hlisted.congr rfl (scheduler_sleepBlocks hsched), rfl⟩
  refine ⟨step_tableInv h.table hrun, step_ring h.ring hrun, hafter.1, ?_, hin, hb, ?_, h.notDue⟩
  · rw [hafter.2, hticks, h.ticks]
  · rw [hpid]
    exact h.pid

theorem Asleep.tickNow (h : Asleep m p e t n j) : (m.before a).tickNow = tickCount ((t + (j + 1)) % 2 ^ 64) := by
  have hticks : (m.ticks + 1) % 2 ^ 64 = (t + (j + 1)) % 2 ^ 64 := by
    rw [h.ticks]
    omega
  show tickCount ((m.ticks + 1) % 2 ^ 64) = _
  rw [hticks]

/-- What the handler does to a sleeper at the next tick. -/
theorem Asleep.handler (h : Asleep m p e t n j) (hE : Sleepers m.toKernel E)
    (hrun : (m.before a).timerHandler = some k) :
    k.state p = if NamedDue m.toKernel p (tickCount ((t + (j + 1)) % 2 ^ 64)) E then .ready else .blocked := by
  set k₁ : Kernel := { m.before a with ticks := (m.ticks + 1) % 2 ^ 64 } with hk₁
  have hE₁ : Sleepers k₁ ([] ++ E) := hE.congr rfl rfl
  have hhead : k₁.sleepList = E.head?.getD 0 := hE.chain.head_eq
  have hrun' : Kernel.sleepTick (m.before a).tickNow k₁.sleepFuel 0 k₁.sleepList k₁ = some k := hrun
  rw [hhead, h.tickNow] at hrun'
  have hwake : MayWake k₁.toCore p :=
    ⟨fun q hq hpid => h.table.pids.inj _ _ hq h.inTable hpid, h.inTable, h.pid, Or.inl h.blocked⟩
  rw [sleepTick_state hE₁ hwake hrun', show k₁.state p = .blocked from h.blocked]
  rfl

/-- The handler returns at the next tick when there is a node for each process that it wakes. -/
theorem Asleep.handler_returns (h : Asleep m p e t n j) : (m.before a).timerHandler.isSome =
    ((m.before a).toMemory.serve (List.replicate
      (dueProcesses m.toKernel (tickCount ((t + (j + 1)) % 2 ^ 64)) m.sleepEntries).ncard .node)).isSome := by
  obtain ⟨E, hE, -⟩ := h.listed.listed
  obtain ⟨L, hL⟩ := h.ring
  set k₁ : Kernel := { m.before a with ticks := (m.ticks + 1) % 2 ^ 64 } with hk₁
  have hE₁ : Sleepers k₁ ([] ++ E) := hE.congr rfl rfl
  have hL₁ : RingInv k₁.toCore L := hL.congr rfl rfl rfl rfl
  have hhead : k₁.sleepList = E.head?.getD 0 := hE.chain.head_eq
  rw [hE.entries_eq]
  show (Kernel.sleepTick (m.before a).tickNow k₁.sleepFuel 0 k₁.sleepList k₁).isSome = _
  rw [hhead, h.tickNow]
  exact sleepTick_isSome hE₁ hL₁ hE₁.length_lt

/-- The own entry is due, and it names the sleeper. -/
theorem Asleep.named (h : Asleep m p e t n j) (he : e ∈ E) (hdue : DueAt t n (j + 1)) :
    NamedDue m.toKernel p (tickCount ((t + (j + 1)) % 2 ^ 64)) E := by
  refine ⟨e, he, ?_, ?_⟩
  · rw [h.listed.wake]
    exact hdue
  · rw [Kernel.entryPid, h.listed.proc]

/-- A tick after which the sleeper is still blocked. -/
theorem Asleep.after_tick (h : Asleep m p e t n j) (hc : a.call = .tick) (hrun : m.step a = some m')
    (hin : InTable m'.toCore p) (hb : m'.state p = .blocked) : Asleep m' p e t n (j + 1) := by
  have hpid : m'.pid p = m.pid p := step_pid_eq h.table hrun h.inTable
  obtain ⟨E, hE, he⟩ := h.listed.listed
  obtain ⟨L, hL⟩ := h.ring
  obtain ⟨r, k, again, hcall, hcases⟩ := step_cases hrun
  obtain ⟨L', hL'⟩ := call_ring (show RingInv (m.before a).toCore L from hL.congr rfl rfl rfl rfl) hcall
  rw [hc] at hcall
  obtain ⟨k₁, hhandler, hret⟩ := Option.map_eq_some_iff.mp hcall
  obtain ⟨-, rfl, rfl⟩ : 0 = r ∧ k₁ = k ∧ true = again := by simpa using hret
  obtain ⟨-, cpu, c, hsched, rfl⟩ := hcases.resolve_left (by simp)
  have hlater : ¬DueAt t n (j + 1) := by
    intro hdue
    have hwoken := h.handler hE hhandler
    rw [if_pos (h.named he hdue), (scheduler_blocked_iff hL' hsched).mp hb] at hwoken
    cases hwoken
  have hbefore : Listed (m.before a) e p (deadline t n) := h.listed.congr rfl rfl
  have hlisted : Listed k₁ e p (deadline t n) := by
    refine hbefore.after_tick h.inTable ?_ hhandler
    rw [h.tickNow]
    exact not_le.mp hlater
  have hticks : k₁.ticks = (m.ticks + 1) % 2 ^ 64 := (sleepTick_others hhandler).2
  refine ⟨step_tableInv h.table hrun, step_ring ⟨L, hL⟩ hrun, ?_, ?_, hin, hb, ?_, fun i hi => ?_⟩
  · exact hlisted.congr rfl (scheduler_sleepBlocks hsched)
  · show k₁.ticks = (t + (j + 1)) % 2 ^ 64
    rw [hticks, h.ticks]
    omega
  · rw [hpid]
    exact h.pid
  · rcases Nat.lt_succ_iff_lt_or_eq.mp hi with hi | rfl
    · exact h.notDue i hi
    · exact hlater

theorem Sleeps.asleep (h : Sleeps m₁ p j m) (h₀ : Asleep m₁ p e t n 0) : Asleep m p e t n j := by
  induction h with
  | start => exact h₀
  | call _ hc hrun hin hb ih => exact ih.after_call hc hrun hin hb
  | tick _ hc hrun hin hb ih => exact ih.after_tick hc hrun hin hb

/-- No other entry of the list names the process. -/
def OnlyEntry (k : Kernel) (e p : ℕ) : Prop := ∀ x ∈ k.sleepEntries, k.entryPid x = k.pid p → x = e

instance (k : Kernel) (e p : ℕ) : Decidable (OnlyEntry k e p) := inferInstanceAs (Decidable (∀ x ∈ _, _))

/-- The next tick makes a sleeper whom nobody else wakes ready exactly when its deadline
has come. -/
theorem Asleep.ready_iff (h : Asleep m p e t n j) (honly : OnlyEntry m.toKernel e p)
    (hrun : (m.before a).timerHandler = some k) : k.state p = .ready ↔ DueAt t n (j + 1) := by
  obtain ⟨E, hE, he⟩ := h.listed.listed
  rw [OnlyEntry, hE.entries_eq] at honly
  have hnamed : NamedDue m.toKernel p (tickCount ((t + (j + 1)) % 2 ^ 64)) E ↔ DueAt t n (j + 1) := by
    refine ⟨?_, h.named he⟩
    rintro ⟨x, hx, hdue, hpid⟩
    obtain rfl := honly x hx hpid
    rwa [h.listed.wake] at hdue
  rw [h.handler hE hrun, ← hnamed]
  split
  · simpa
  · simpa

/-- As long as the current process of `m` sleeps and nobody else wakes it, the handler
makes it ready exactly at a tick whose count is at least the one at the call plus `n`. -/
def WokenOnTime (m : Machine) (n e : ℕ) (m₁ : Machine) : Prop :=
  ∀ j m₂ b k, Sleeps m₁ m.currentProcess j m₂ → OnlyEntry m₂.toKernel e m.currentProcess →
    (m₂.before b).timerHandler = some k → (k.state m.currentProcess = .ready ↔ m.ticks + n ≤ k.ticks)

/-- A sleeper is woken on time if the low bits of the counter stay narrow. If they do not,
there is a tick that goes wrong, and no tick before it wakes the sleeper. -/
theorem sleep_deadlines (h : FallsAsleep m a n e m₁) (hsum : m.ticks + n < 2 ^ 64) :
    (StaysNarrow m.ticks n → WokenOnTime m n e m₁) ∧
      (¬StaysNarrow m.ticks n → ∃ j, (∀ i < j, ¬DueAt m.ticks n (i + 1)) ∧
        ∀ m₂ b k, Sleeps m₁ m.currentProcess j m₂ → OnlyEntry m₂.toKernel e m.currentProcess →
          (m₂.before b).timerHandler = some k → ¬(k.state m.currentProcess = .ready ↔ m.ticks + n ≤ k.ticks)) := by
  have hfell := h.asleep (by omega)
  have hcount {j : ℕ} {m₂ : Machine} {b : Action} {k : Kernel} (hs : Sleeps m₁ m.currentProcess j m₂)
      (hrun : (m₂.before b).timerHandler = some k) : k.ticks = (m.ticks + (j + 1)) % 2 ^ 64 := by
    have hticks : k.ticks = (m₂.ticks + 1) % 2 ^ 64 := (sleepTick_others hrun).2
    rw [hticks, (hs.asleep hfell).ticks]
    omega
  constructor
  · intro hnarrow j m₂ b k hs honly hrun
    have hsleep := hs.asleep hfell
    rw [hsleep.ready_iff honly hrun, hcount hs hrun]
    exact (onTime_iff hsum).mpr hnarrow j hsleep.notDue
  · intro hwide
    rw [← onTime_iff hsum, OnTime, not_forall] at hwide
    simp only [not_forall] at hwide
    obtain ⟨j, hbefore, hwrong⟩ := hwide
    refine ⟨j, hbefore, fun m₂ b k hs honly hrun => ?_⟩
    rw [(hs.asleep hfell).ready_iff honly hrun, hcount hs hrun]
    exact hwrong

/-- Two processes, of which the second one runs, with the counter at `t`. -/
def secondRuns (t : ℕ) : Machine :=
  { ran (fun _ _ => True) initial [create 100, plain .tick, create 200, plain .tick] with ticks := t }

def sleepFor (n : ℕ) : Action := ⟨.sysSleep n, 0, [700]⟩

def secondSleeps (t n : ℕ) : Machine := ((secondRuns t).step (sleepFor n)).getD (secondRuns t)

theorem reached_ticks (h : boot.Reach (fun _ _ => True) m) (t : ℕ) :
    ∃ ticks, boot.Reach (fun _ _ => True) { ({ m with ticks := t } : Machine) with ticks := ticks } := ⟨m.ticks, h⟩

theorem secondRuns_reached (t : ℕ) : ∃ ticks, boot.Reach (fun _ _ => True) { secondRuns t with ticks := ticks } := by
  have hreach : boot.Reach (fun _ _ => True)
      (ran (fun _ _ => True) initial [create 100, plain .tick, create 200, plain .tick]) := boot_ran (by decide +kernel)
  exact reached_ticks hreach t

theorem sleep_deadlines_three : WokenOnTime (secondRuns 0) 3 700 (secondSleeps 0 3) := by
  have hfell : FallsAsleep (secondRuns 0) (sleepFor 3) 3 700 (secondSleeps 0 3) :=
    ⟨secondRuns_reached 0, rfl, by decide +kernel, by decide +kernel, by decide +kernel, by decide +kernel, by decide,
      step_getD (by decide +kernel)⟩
  exact (sleep_deadlines hfell (by decide +kernel)).1 ⟨by decide +kernel, by decide +kernel, by decide +kernel⟩

/-- The kernel when the handler has gone through the list, and the node `900` was free. -/
def afterHandler (m : Machine) : Kernel := ((m.before ⟨.tick, 0, [900]⟩).timerHandler).getD m.toKernel

/-- With the counter just below `2 ^ 31`, a sleep of two ticks ends at the first one. -/
theorem sleep_deadlines_crossing : ¬∀ m a n e m₁, FallsAsleep m a n e m₁ → m.ticks + n < 2 ^ 64 →
    WokenOnTime m n e m₁ := by
  intro hall
  set t := 2 ^ 31 - 1 with ht
  have hfell : FallsAsleep (secondRuns t) (sleepFor 2) 2 700 (secondSleeps t 2) :=
    ⟨secondRuns_reached t, rfl, by decide +kernel, by decide +kernel, by decide +kernel, by decide +kernel, by decide,
      step_getD (by decide +kernel)⟩
  have hhandler : ((secondSleeps t 2).before ⟨.tick, 0, [900]⟩).timerHandler =
      some (afterHandler (secondSleeps t 2)) := by
    have hsome : ((secondSleeps t 2).before ⟨.tick, 0, [900]⟩).timerHandler.isSome = true := by decide +kernel
    obtain ⟨k, hk⟩ := Option.isSome_iff_exists.mp hsome
    rw [afterHandler, hk]
    rfl
  have hready := hall _ _ _ _ _ hfell (by decide +kernel) 0 _ _ _ .start (by decide +kernel) hhandler
  have hearly : ¬(secondRuns t).ticks + 2 ≤ (afterHandler (secondSleeps t 2)).ticks := by decide +kernel
  exact hearly (hready.mp (by decide +kernel))

end BareKernel

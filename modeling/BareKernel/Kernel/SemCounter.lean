import BareKernel.Kernel.KeyboardLaw

/-! The counters of the semaphores, in any run of the calls on them. One field of 16 bits
holds the counter of an open semaphore and the mark `-1` of a closed one, and no call
checks what it writes there. -/

namespace BareKernel

open Function (update)
open Process Links Machine

variable {k k' : Kernel} {c : Core} {id r : ℤ} {again : Bool}

/-- A call on a semaphore, or anything else that the kernel does. -/
inductive SemAction where
  | semOpen (id initialValue : ℤ)
  | semClose (id : ℤ)
  | semPost (id : ℤ)
  | semWait (id : ℤ)
  | other (k : Kernel)

/-- The kernel, with the semaphores for which `sem_open` has returned and that nobody has
closed since. -/
structure SemLog extends Kernel where
  opened : ℤ → Bool

variable {s t : SemLog} {a : SemAction}

namespace SemLog

def step (s : SemLog) : SemAction → Option SemLog
  | .semOpen id v =>
    let (r, k) := s.toKernel.semOpen id v
    some ⟨k, if r = -1 then s.opened else update s.opened id true⟩
  | .semClose id => (s.toKernel.semClose id).map fun (_, k) => ⟨k, update s.opened id false⟩
  | .semPost id => (s.toKernel.semPost id).map fun (_, k) => { s with toKernel := k }
  | .semWait id => (s.toKernel.semWait id).map fun (_, k, _) => { s with toKernel := k }
  | .other k => some { s with toKernel := { k with sems := s.sems } }

/-- The counter of an open semaphore is not negative. -/
def Legal (s : SemLog) : Prop := ∀ id, s.opened id = true → 0 ≤ (s.sems id).value

/-- A post on an open semaphore for which nobody waits counts. -/
def Counts (s : SemLog) (a : SemAction) (t : SemLog) : Prop :=
  ∀ id, a = .semPost id → s.opened id = true → (s.sems id).count = 0 → (t.sems id).value = (s.sems id).value + 1

/-- Nobody in the queue is a process of the table. -/
def NobodyWaits (k : Kernel) (id : ℤ) : Prop :=
  ∀ pid ∈ ((k.sems id).drain (k.sems id).count (k.sems id).head).1, getProcessByPid k.toCore pid = 0

instance (k : Kernel) (id : ℤ) : Decidable (NobodyWaits k id) := inferInstanceAs (Decidable (∀ pid ∈ _, _))

/-- What opens a closed semaphore gives it a value that is not negative, and a post that
counts finds room for one more in 16 bits. -/
def KeepsCounters (s : SemLog) : SemAction → Prop
  | .semOpen id v => 0 ≤ id → id < semMax → (s.sems id).value = -1 → 0 ≤ v.bmod (2 ^ 16)
  | .semPost id => s.opened id = true → NobodyWaits s.toKernel id → (s.sems id).value < 2 ^ 15 - 1
  | _ => True

instance (s : SemLog) (a : SemAction) : Decidable (s.KeepsCounters a) :=
  match a with
  | .semOpen _ _ | .semPost _ => by
    unfold KeepsCounters
    infer_instance
  | .semClose _ | .semWait _ | .other _ => inferInstanceAs (Decidable True)

end SemLog

/-- Runs of the calls from `init_semaphores` on. -/
def semCalls : System SemLog SemAction where
  init s := (∀ id, s.sems id = ⟨-1, fun _ => 0, 0, 0, 0⟩) ∧ ∀ id, s.opened id = false
  step s a t := s.step a = some t

/-! ### One semaphore -/

/-- An open semaphore counts in the upper half of its field, and any other is marked
closed. -/
def SemLog.CounterAt (s : SemLog) (id : ℤ) : Prop :=
  (s.opened id = true ∧ 0 ≤ id ∧ id < semMax ∧ 0 ≤ (s.sems id).value ∧ (s.sems id).value < 2 ^ 15) ∨
    s.opened id = false ∧ (s.sems id).value = -1

open SemLog

theorem SemLog.CounterAt.congr {i : ℤ} (h : s.CounterAt i) (hs : (t.sems i).value = (s.sems i).value)
    (ho : t.opened i = s.opened i) : t.CounterAt i := by
  unfold SemLog.CounterAt
  rw [hs, ho]
  exact h

theorem SemLog.CounterAt.opened_iff (h : s.CounterAt id) : s.opened id = true ↔ s.IsOpen id := by
  constructor
  · intro ho
    rcases h with ⟨-, h0, hmax, hv, -⟩ | ⟨hno, -⟩
    · exact ⟨h0, hmax, by omega⟩
    · rw [ho] at hno
      cases hno
  · intro ho
    exact (h.resolve_right fun hno => ho.2.2 hno.2).1

/-- Draining reads the buffer and nothing else. -/
theorem drain_congr {q q' : Semaphore} (h : q'.waiting = q.waiting) (n head : ℕ) :
    q'.drain n head = q.drain n head := by
  induction n generalizing head with
  | zero => rfl
  | succ n ih => rw [Semaphore.drain, Semaphore.drain, ih, h]

/-- The loop of a post finds nobody exactly when nobody in the queue is in the table. -/
theorem popLive_none (c : Core) (n : ℕ) (q : Semaphore) :
    (q.popLive c n).1 = none ↔ ∀ pid ∈ (q.drain n q.head).1, getProcessByPid c pid = 0 := by
  induction n generalizing q with
  | zero => simp [Semaphore.popLive, Semaphore.drain]
  | succ n ih =>
    rw [Semaphore.popLive, Semaphore.drain]
    simp only [List.forall_mem_cons]
    by_cases hlive : getProcessByPid c (q.waiting q.head) = 0
    · simp only [hlive, ne_eq, not_true_eq_false, if_false, true_and]
      set q' : Semaphore := { q with head := (q.head + 1) % maxProcesses, count := n } with hq'
      have hdrain := drain_congr (show q'.waiting = q.waiting from rfl) n q'.head
      rw [ih]
      exact iff_of_eq (congrArg (fun r => ∀ pid ∈ r.1, getProcessByPid c pid = 0) hdrain)
    · simp [hlive]

/-! ### Steps -/

/-- The semaphore that an action works on. -/
def SemAction.sem : SemAction → Option ℤ
  | .semOpen id _ | .semClose id | .semPost id | .semWait id => some id
  | .other _ => none

/-- Another semaphore stays as it is. -/
theorem SemLog.step_other {i : ℤ} (hrun : s.step a = some t) (hi : a.sem ≠ some i) :
    t.sems i = s.sems i ∧ t.opened i = s.opened i := by
  cases a with
  | semOpen id v =>
    have hne : i ≠ id := fun he => hi (congrArg some he.symm)
    obtain rfl := Option.some.inj hrun
    refine ⟨semOpen_of_ne hne, ?_⟩
    show (if (s.semOpen id v).1 = -1 then s.opened else update s.opened id true) i = s.opened i
    split
    · rfl
    · exact Function.update_of_ne hne ..
  | semClose id =>
    have hne : i ≠ id := fun he => hi (congrArg some he.symm)
    obtain ⟨⟨v, k⟩, hclose, rfl⟩ := Option.map_eq_some_iff.mp hrun
    refine ⟨?_, Function.update_of_ne hne ..⟩
    rcases semClose_cases hclose with ⟨-, -, rfl⟩ | ⟨-, -, c, -, rfl⟩
    · rfl
    · exact setSem_of_ne hne
  | semPost id =>
    have hne : i ≠ id := fun he => hi (congrArg some he.symm)
    obtain ⟨⟨v, k⟩, hpost, rfl⟩ := Option.map_eq_some_iff.mp hrun
    refine ⟨?_, rfl⟩
    rcases semPost_cases hpost with ⟨-, -, rfl⟩ | ⟨-, -, ⟨pid, q, w, c, -, -, rfl⟩ | ⟨q, -, rfl⟩⟩
    · rfl
    · exact setSem_of_ne hne
    · exact setSem_of_ne hne
  | semWait id =>
    have hne : i ≠ id := fun he => hi (congrArg some he.symm)
    obtain ⟨⟨v, k, again⟩, hwait, rfl⟩ := Option.map_eq_some_iff.mp hrun
    refine ⟨?_, rfl⟩
    rcases semWait_cases hwait with ⟨-, -, rfl, -⟩ | ⟨-, -, -, -, rfl⟩ | ⟨-, -, -, w, c, -, rfl⟩
    · rfl
    · exact setSem_of_ne hne
    · exact setSem_of_ne hne
  | other k =>
    obtain rfl := Option.some.inj hrun
    exact ⟨rfl, rfl⟩

/-- What a step leaves of the semaphore that it works on: a legal counter, or one that
has become negative. -/
structure Lawful (s : SemLog) (a : SemAction) (t : SemLog) (id : ℤ) : Prop where
  keeps : s.KeepsCounters a
  counter : t.CounterAt id
  counts : s.Counts a t

structure Unlawful (s : SemLog) (a : SemAction) (t : SemLog) (id : ℤ) : Prop where
  breaks : ¬s.KeepsCounters a
  opened : t.opened id = true
  negative : (t.sems id).value < 0

theorem SemLog.CounterAt.semOpen {v : ℤ} (h : s.CounterAt id) (hrun : s.step (.semOpen id v) = some t) :
    Lawful s (.semOpen id v) t id ∨ Unlawful s (.semOpen id v) t id := by
  have hcounts (t' : SemLog) : s.Counts (.semOpen id v) t' := by
    intro i hi
    cases hi
  unfold SemLog.step Kernel.semOpen at hrun
  by_cases hrange : id < 0 ∨ semMax ≤ id
  · simp only [hrange, if_true] at hrun
    obtain rfl := Option.some.inj hrun
    exact Or.inl ⟨fun h0 hmax => by omega, h, hcounts _⟩
  · have hne : id ≠ -1 := by omega
    simp only [hrange, if_false] at hrun
    by_cases hclosed : (s.sems id).value = -1
    · simp only [hclosed, ne_eq, not_true_eq_false, if_false, hne] at hrun
      obtain rfl := Option.some.inj hrun
      have ho : update s.opened id true id = true := Function.update_self ..
      have hvalue := congrArg Semaphore.value (setSem_self s.toKernel id
        { s.sems id with value := v.bmod (2 ^ 16), head := 0, tail := 0, count := 0 })
      by_cases hv : 0 ≤ v.bmod (2 ^ 16)
      · have hlt : v.bmod (2 ^ 16) < 2 ^ 15 := by
          have := Int.bmod_lt (x := v) (m := 2 ^ 16) (by decide)
          omega
        refine Or.inl ⟨fun _ _ _ => hv, Or.inl ⟨ho, by omega, by omega, ?_, ?_⟩, hcounts _⟩
        · rw [hvalue]
          exact hv
        · rw [hvalue]
          exact hlt
      · exact Or.inr ⟨fun hk => hv (hk (by omega) (by omega) hclosed), ho, by rw [hvalue]; exact not_le.mp hv⟩
    · simp only [hclosed, ne_eq, not_false_eq_true, if_true, hne, if_false] at hrun
      obtain rfl := Option.some.inj hrun
      have ho : s.opened id = true := h.opened_iff.mpr ⟨by omega, by omega, hclosed⟩
      exact Or.inl ⟨fun _ _ hv => absurd hv hclosed, h.congr rfl ((Function.update_self ..).trans ho.symm), hcounts _⟩

theorem SemLog.CounterAt.semClose (h : s.CounterAt id) (hrun : s.step (.semClose id) = some t) :
    Lawful s (.semClose id) t id := by
  refine ⟨trivial, ?_, fun i hi => by cases hi⟩
  obtain ⟨⟨v, k⟩, hclose, rfl⟩ := Option.map_eq_some_iff.mp hrun
  refine Or.inr ⟨Function.update_self .., ?_⟩
  rcases semClose_cases hclose with ⟨hno, -, rfl⟩ | ⟨-, -, c, -, rfl⟩
  · by_contra hv
    rcases h with ⟨ho, h0, hmax, -⟩ | ⟨-, hclosed⟩
    · exact hno ⟨h0, hmax, hv⟩
    · exact hv hclosed
  · exact congrArg Semaphore.value (setSem_self s.toKernel id _)

theorem SemLog.CounterAt.semPost (h : s.CounterAt id) (hrun : s.step (.semPost id) = some t) :
    Lawful s (.semPost id) t id ∨ Unlawful s (.semPost id) t id := by
  obtain ⟨⟨v, k⟩, hpost, rfl⟩ := Option.map_eq_some_iff.mp hrun
  rcases semPost_cases hpost with ⟨hno, -, rfl⟩ | ⟨ho, -, ⟨pid, q, w, c, hpop, -, rfl⟩ | ⟨q, hpop, rfl⟩⟩
  · -- nothing is done on a closed semaphore
    have hclosed : s.opened id ≠ true := fun ho => hno (h.opened_iff.mp ho)
    refine Or.inl ⟨fun ho => absurd ho hclosed, h, fun i hi ho => ?_⟩
    obtain rfl : id = i := by simpa using hi
    exact absurd ho hclosed
  · -- the token goes to a process of the queue
    have hvalue : q.value = (s.sems id).value := by
      have hkept := popLive_value s.toCore (s.sems id).count (s.sems id)
      rwa [hpop] at hkept
    have hlive : ¬NobodyWaits s.toKernel id := by
      intro hnobody
      have hnone := (popLive_none s.toCore (s.sems id).count (s.sems id)).mpr hnobody
      rw [hpop] at hnone
      cases hnone
    have hself : ((s.setSem id q).sems id).value = (s.sems id).value :=
      (congrArg Semaphore.value (setSem_self s.toKernel id q)).trans hvalue
    refine Or.inl ⟨fun _ hnobody => absurd hnobody hlive, h.congr hself rfl, fun i hi _ hcount => ?_⟩
    obtain rfl : id = i := by simpa using hi
    rw [hcount] at hpop
    cases hpop
  · -- nobody is there to take it
    have hvalue : q.value = (s.sems id).value := by
      have hkept := popLive_value s.toCore (s.sems id).count (s.sems id)
      rwa [hpop] at hkept
    have hnobody : NobodyWaits s.toKernel id := by
      have hnone := popLive_none s.toCore (s.sems id).count (s.sems id)
      rw [hpop] at hnone
      exact hnone.mp rfl
    have hself : ((s.setSem id { q with value := (q.value + 1).bmod (2 ^ 16) }).sems id).value =
        ((s.sems id).value + 1).bmod (2 ^ 16) := by
      rw [setSem_self, hvalue]
    have hopen : s.opened id = true := h.opened_iff.mpr ho
    obtain ⟨-, h0, hmax, hv0, hv⟩ := h.resolve_right fun hno => by rw [hopen] at hno; cases hno.1
    by_cases hroom : (s.sems id).value < 2 ^ 15 - 1
    · have hsum : ((s.sems id).value + 1).bmod (2 ^ 16) = (s.sems id).value + 1 := by
        rw [Int.bmod_def]
        omega
      rw [hsum] at hself
      refine Or.inl ⟨fun _ _ => hroom, Or.inl ⟨hopen, h0, hmax, ?_, ?_⟩, fun i hi _ _ => ?_⟩
      · rw [hself]
        omega
      · rw [hself]
        omega
      · obtain rfl : id = i := by simpa using hi
        exact hself
    · refine Or.inr ⟨fun hk => hroom (hk hopen hnobody), hopen, ?_⟩
      rw [hself, Int.bmod_def]
      omega

theorem SemLog.CounterAt.semWait (h : s.CounterAt id) (hrun : s.step (.semWait id) = some t) :
    Lawful s (.semWait id) t id := by
  refine ⟨trivial, ?_, fun i hi => by cases hi⟩
  obtain ⟨⟨v, k, again⟩, hwait, rfl⟩ := Option.map_eq_some_iff.mp hrun
  rcases semWait_cases hwait with ⟨-, -, rfl, -⟩ | ⟨-, -, ho, hne, rfl⟩ | ⟨-, -, -, w, c, -, rfl⟩
  · exact h
  · have hopen : s.opened id = true := h.opened_iff.mpr ho
    obtain ⟨-, h0, hmax, hv0, hv⟩ := h.resolve_right fun hno => by rw [hopen] at hno; cases hno.1
    have hself : ((s.setSem id { s.sems id with value := ((s.sems id).value - 1).bmod (2 ^ 16) }).sems id).value =
        (s.sems id).value - 1 := by
      rw [setSem_self, Int.bmod_def]
      dsimp only
      omega
    exact Or.inl ⟨hopen, h0, hmax, by rw [hself]; omega, by rw [hself]; omega⟩
  · have hself : ((s.setSem id ((s.sems id).push (s.pid s.currentProcess))).sems id).value = (s.sems id).value := by
      rw [setSem_self]
      rfl
    exact h.congr hself rfl

/-- Every step keeps the counters legal and counts, or makes one of them negative. -/
theorem SemLog.step_lawful (h : ∀ i, s.CounterAt i) (hrun : s.step a = some t) :
    (s.KeepsCounters a ∧ (∀ i, t.CounterAt i) ∧ s.Counts a t) ∨ ¬s.KeepsCounters a ∧ ¬t.Legal := by
  have hothers (id : ℤ) (hsem : a.sem = some id) (hself : t.CounterAt id) (i : ℤ) : t.CounterAt i := by
    rcases eq_or_ne i id with rfl | hi
    · exact hself
    · obtain ⟨hs, ho⟩ := step_other hrun (i := i) (by rw [hsem]; exact fun he => hi (Option.some.inj he).symm)
      exact (h i).congr (by rw [hs]) ho
  have hone (id : ℤ) (hsem : a.sem = some id) (hcases : Lawful s a t id ∨ Unlawful s a t id) :
      (s.KeepsCounters a ∧ (∀ i, t.CounterAt i) ∧ s.Counts a t) ∨ ¬s.KeepsCounters a ∧ ¬t.Legal := by
    rcases hcases with hlaw | hun
    · exact Or.inl ⟨hlaw.keeps, hothers id hsem hlaw.counter, hlaw.counts⟩
    · exact Or.inr ⟨hun.breaks, fun hlegal => absurd (hlegal id hun.opened) (not_le.mpr hun.negative)⟩
  cases a with
  | semOpen id v => exact hone id rfl ((h id).semOpen hrun)
  | semClose id => exact hone id rfl (Or.inl ((h id).semClose hrun))
  | semPost id => exact hone id rfl ((h id).semPost hrun)
  | semWait id => exact hone id rfl (Or.inl ((h id).semWait hrun))
  | other k =>
    refine Or.inl ⟨trivial, fun i => ?_, fun i hi => by cases hi⟩
    obtain ⟨hs, ho⟩ := step_other hrun (i := i) (by simp [SemAction.sem])
    exact (h i).congr (by rw [hs]) ho

theorem semCalls_counters (h : semCalls.Reach (fun s a => s.KeepsCounters a) s) : ∀ i, s.CounterAt i := by
  refine h.invariant (I := fun s => ∀ i, s.CounterAt i) (fun s hinit i => ?_) fun s a t hs hok hrun => ?_
  · exact Or.inr ⟨hinit.2 i, by rw [hinit.1 i]⟩
  · rcases step_lawful hs hrun with ⟨-, ht, -⟩ | ⟨hno, -⟩
    · exact ht
    · exact absurd hok hno

/-- In every run of such calls an open semaphore is not seen as closed and a wait on it
blocks exactly when there is no token and room in the queue; and each next call keeps the
counters legal and counts if and only if it is such a call. -/
theorem sem_counter_legal (h : semCalls.Reach (fun s a => s.KeepsCounters a) s) :
    s.Legal ∧ (∀ id, s.opened id = true → s.IsOpen id) ∧
      (∀ id r k again, s.opened id = true → s.toKernel.semWait id = some (r, k, again) →
        (again = true ↔ (s.sems id).value = 0 ∧ (s.sems id).count < maxProcesses)) ∧
      ∀ a t, s.step a = some t → (t.Legal ∧ s.Counts a t ↔ s.KeepsCounters a) := by
  have hall := semCalls_counters h
  have hlegal {s : SemLog} (hs : ∀ i, s.CounterAt i) : s.Legal := by
    intro id ho
    rcases hs id with ⟨-, -, -, hv, -⟩ | ⟨hno, -⟩
    · exact hv
    · rw [ho] at hno
      cases hno
  refine ⟨hlegal hall, fun id ho => (hall id).opened_iff.mp ho, fun id r k again ho hwait => ?_, fun a t hrun => ?_⟩
  · have hopen := (hall id).opened_iff.mp ho
    rcases semWait_cases hwait with ⟨rfl, -, -, hfull⟩ | ⟨rfl, -, -, hne, -⟩ | ⟨rfl, -, hw, -⟩
    · have hcount := (hfull hopen).2
      simp [hcount]
    · simp [hne]
    · simpa using hw.2
  · rcases step_lawful hall hrun with ⟨hk, ht, hcounts⟩ | ⟨hno, hbad⟩
    · exact ⟨fun _ => hk, fun _ => ⟨hlegal ht, hcounts⟩⟩
    · exact ⟨fun hl => absurd hl.1 hbad, fun hk => absurd hk hno⟩

/-- All semaphores are closed. -/
def noSems : SemLog := ⟨{ initial.toKernel with sems := fun _ => ⟨-1, fun _ => 0, 0, 0, 0⟩ }, fun _ => false⟩

theorem noSems_init : semCalls.init noSems := ⟨fun _ => rfl, fun _ => rfl⟩

def semRan (ok : SemLog → SemAction → Prop) [∀ s a, Decidable (ok s a)] (as : List SemAction) : SemLog :=
  (System.runList SemLog.step ok noSems as).getD noSems

/-- A semaphore is opened with one token, which is taken and given back. -/
theorem sem_counter_legal_once :
    (semRan (fun s a => s.KeepsCounters a) [.semOpen 5 1, .semWait 5, .semPost 5]).Legal :=
  (sem_counter_legal ((System.Reach.init noSems_init).runList_getD (fun _ _ _ => id) (by decide +kernel))).1

/-- A semaphore that is opened with the value `-1` is closed. -/
theorem sem_counter_legal_negative :
    ¬∀ s, semCalls.Reach (fun _ _ => True) s → s.Legal ∧ ∀ a t, s.step a = some t → t.Legal ∧ s.Counts a t := by
  intro hall
  set s := semRan (fun _ _ => True) [.semOpen 5 (-1)] with hs
  have hreach : semCalls.Reach (fun _ _ => True) s :=
    (System.Reach.init noSems_init).runList_getD (fun _ _ _ => id) (by decide +kernel)
  have hneg : ¬0 ≤ (s.sems 5).value := by rw [hs]; decide +kernel
  exact hneg ((hall s hreach).1 5 (by rw [hs]; decide +kernel))

/-! ### The machine -/

/-- The rest of the kernel may change in between. -/
theorem SemLog.step_rest (h : k.sems = s.sems) : s.step (.other k) = some { s with toKernel := k } := by
  show some { s with toKernel := { k with sems := s.sems } } = _
  rw [← h]

/-- A new pipe opens two semaphores. -/
theorem createPipe_semCalls (s : SemLog) :
    ∃ t, semCalls.Leads (fun _ _ => True) s t ∧ t.sems = s.createPipe.2.sems := by
  rcases createPipe_sems s.toKernel with ⟨-, hsame⟩ | ⟨k₁, pipe, hk₁, hsems⟩
  · exact ⟨s, .refl, hsame.symm⟩
  · obtain ⟨k₂, k₃, hk₂, hk₃, hinit⟩ := pipeInit_sems k₁ pipe
    have h₁ : semCalls.Leads (fun _ _ => True) s { s with toKernel := k₂ } :=
      .step .refl trivial (step_rest (hk₂.trans hk₁))
    have h₂ := h₁.step trivial (show semCalls.step { s with toKernel := k₂ } (.semOpen 1 0) _ from rfl)
    have h₃ := h₂.step trivial (step_rest hk₃)
    have h₄ := h₃.step trivial (show semCalls.step _ (.semOpen 2 bufferSize) _ from rfl)
    exact ⟨_, h₄, (hsems.trans hinit).symm⟩

/-- What a call of the machine does to the semaphores, calls on them do. -/
theorem call_semCalls {call : Call} (hs : s.toKernel = k) (hrun : k.call call = some (r, k', again)) :
    ∃ t, semCalls.Leads (fun _ _ => True) s t ∧ t.sems = k'.sems := by
  subst hs
  have hone {a : SemAction} {t : SemLog} (hstep : s.step a = some t) : semCalls.Leads (fun _ _ => True) s t :=
    .step .refl trivial hstep
  by_cases hpipe : call = .createPipe
  · subst hpipe
    obtain ⟨-, rfl, -⟩ : _ = r ∧ s.createPipe.2 = k' ∧ false = again := by simpa [Kernel.call] using hrun
    exact createPipe_semCalls s
  · obtain ⟨hothers, -⟩ := call_others hrun
    cases call with
    | semOpen id v =>
      obtain ⟨-, rfl, -⟩ : _ = r ∧ (s.semOpen id v).2 = k' ∧ false = again := by simpa [Kernel.call] using hrun
      exact ⟨_, hone (a := .semOpen id v) rfl, rfl⟩
    | semClose id =>
      obtain ⟨⟨v, k₁⟩, hcall, hret⟩ := Option.map_eq_some_iff.mp hrun
      obtain ⟨-, rfl, -⟩ : v = r ∧ k₁ = k' ∧ false = again := by simpa using hret
      exact ⟨_, hone (a := .semClose id) (Option.map_eq_some_iff.mpr ⟨_, hcall, rfl⟩), rfl⟩
    | semPost id =>
      obtain ⟨⟨v, k₁⟩, hcall, hret⟩ := Option.map_eq_some_iff.mp hrun
      obtain ⟨-, rfl, -⟩ : v = r ∧ k₁ = k' ∧ false = again := by simpa using hret
      exact ⟨_, hone (a := .semPost id) (Option.map_eq_some_iff.mpr ⟨_, hcall, rfl⟩), rfl⟩
    | semWait id => exact ⟨_, hone (a := .semWait id) (Option.map_eq_some_iff.mpr ⟨_, hrun, rfl⟩), rfl⟩
    | _ => exact ⟨s, .refl, funext fun id => (hothers hpipe id (by simp [Call.sem])).symm⟩

theorem step_semCalls {m m' : Machine} {a : Action} (hs : s.sems = m.sems) (hrun : m.step a = some m') :
    ∃ t, semCalls.Leads (fun _ _ => True) s t ∧ t.sems = m'.sems := by
  obtain ⟨r, k, again, hcall, hcases⟩ := step_cases hrun
  have hbefore : semCalls.step s (.other (m.before a)) { s with toKernel := m.before a } := step_rest hs.symm
  obtain ⟨t, hleads, ht⟩ := call_semCalls (s := { s with toKernel := m.before a }) rfl hcall
  have hfirst : semCalls.Leads (fun _ _ => True) s { s with toKernel := m.before a } := .step .refl trivial hbefore
  refine ⟨t, hfirst.trans hleads, ht.trans ?_⟩
  rcases hcases with ⟨-, rfl⟩ | ⟨-, cpu, c, -, rfl⟩
  · rfl
  · rfl

/-- Every run of the machine is a run of calls on its semaphores, the first of which the
boot code makes. -/
theorem machine_semCalls {m : Machine} {ok : Machine → Action → Prop} (h : boot.Reach ok m) :
    ∃ s, semCalls.Reach (fun _ _ => True) s ∧ s.sems = m.sems := by
  refine h.invariant (I := fun m => ∃ s, semCalls.Reach (fun _ _ => True) s ∧ s.sems = m.sems) (fun m hm => ?_) ?_
  · have hopen : semCalls.step noSems (.semOpen 0 0) _ := rfl
    refine ⟨_, .step (.init noSems_init) trivial hopen, funext fun id => ?_⟩
    rw [hm.sems]
    rcases eq_or_ne id 0 with rfl | hid
    · rfl
    · have hother : (noSems.toKernel.semOpen 0 0).2.sems id = noSems.sems id := semOpen_of_ne hid
      rw [if_neg hid]
      exact hother
  · rintro m a m' ⟨s, hreach, hs⟩ - hrun
    obtain ⟨t, hleads, ht⟩ := step_semCalls hs hrun
    exact ⟨t, hleads.reach hreach, ht⟩

end BareKernel

import BareKernel.Kernel.Deadline

/-! The end of a semaphore. `sem_close` takes the pids out of the queue and goes through
them, but it asks whether somebody has the number of the place as pid, not whether
somebody has the pid that stands there. -/

namespace BareKernel

open Function (update)
open Process Links Machine

variable {k k' : Kernel} {c c' c₁ : Core} {m m' : Machine} {a : Action} {L L' : List ℕ} {p q i : ℕ} {id pid r : ℤ}
  {pids : List ℤ} {w : ℕ → Prop}

/-! ### Waking in any run -/

/-- Exactly the processes of `w` have become ready and entered the ring. -/
structure Enters (c : Core) (L : List ℕ) (c' : Core) (L' : List ℕ) (w : ℕ → Prop) : Prop extends Roused c c' w where
  ring : RingInv c' L'
  procs : ∀ q, q ∈ ringProcs c' L' ↔ q ∈ ringProcs c L ∨ w q

theorem Enters.refl (h : RingInv c L) : Enters c L c L nobody :=
  ⟨.refl c, h, fun _ => (or_iff_left id).symm⟩

theorem Enters.congr {w' : ℕ → Prop} (h : Enters c L c' L' w) (hw : ∀ q, w' q ↔ w q) : Enters c L c' L' w' :=
  ⟨h.toRoused.congr hw, h.ring, fun q => (h.procs q).trans (or_congr_right (hw q).symm)⟩

theorem Enters.trans {w' : ℕ → Prop} {L₁ : List ℕ} (h : Enters c L c₁ L₁ w) (h' : Enters c₁ L₁ c' L' w') :
    Enters c L c' L' fun q => w q ∨ w' q :=
  ⟨h.toRoused.trans h'.toRoused, h'.ring, fun q => by rw [h'.procs, h.procs, or_assoc]⟩

theorem unblockProcess_enters (h : RingInv c L) (hrun : Process.unblockProcess c pid = some (r, c')) :
    ∃ L', Enters c L c' L' (Wakes c pid) := by
  obtain ⟨L', hring, hprocs, -⟩ := h.unblock hrun
  exact ⟨L', unblockProcess_roused h hrun, hring, hprocs⟩

theorem wakeSlot_enters (h : RingInv c L) (hrun : Kernel.wakeSlot c i pid = some c') :
    ∃ L', Enters c L c' L' fun q => foundprocess c i ≠ none ∧ Wakes c pid q := by
  rcases wakeSlot_cases hrun with ⟨hf, rfl⟩ | ⟨hf, v, hun⟩
  · exact ⟨L, (Enters.refl h).congr fun q => by simp [hf, nobody]⟩
  · obtain ⟨L', henter⟩ := unblockProcess_enters h hun
    exact ⟨L', henter.congr fun q => by simp [hf]⟩

theorem wakeAll_enters (h : RingInv c L) (hrun : Kernel.wakeAll i pids c = some c') :
    ∃ L', Enters c L c' L' (SlotWakes c i pids) := by
  induction pids generalizing c L i with
  | nil =>
    obtain rfl := Option.some.inj hrun
    exact ⟨L, (Enters.refl h).congr fun q => by simp [SlotWakes, nobody]⟩
  | cons pid pids ih =>
    obtain ⟨c₁, hslot, hrest⟩ := Option.bind_eq_some_iff.mp hrun
    obtain ⟨L₁, h₁⟩ := wakeSlot_enters h hslot
    obtain ⟨L', h'⟩ := ih h₁.ring hrest
    exact ⟨L', (h₁.trans h').congr fun q => h₁.toRoused.slotWakes_cons⟩

/-- Nobody who is not blocked is inside a call, in any run. -/
theorem step_whyBlocked (h : ∃ L, RingInv m.toCore L) (hrun : m.step a = some m') : WhyBlocked m' := by
  obtain ⟨L, hL⟩ := h
  obtain ⟨r, k, again, hcall, hcases⟩ := step_cases hrun
  obtain ⟨L', hL'⟩ := call_ring (show RingInv (m.before a).toCore L from hL.congr rfl rfl rfl rfl) hcall
  have hafter : WhyBlocked (m.after a k again) := by
    intro p hp
    by_contra hs
    exact hp (if_pos hs)
  rcases hcases with ⟨-, rfl⟩ | ⟨-, cpu, c, hsched, rfl⟩
  · exact hafter
  · exact fun p hp => (scheduler_blocked_iff hL' hsched).mpr (hafter p hp)

theorem boot_reach_whyBlocked {ok : Machine → Action → Prop} (h : boot.Reach ok m) :
    (∃ L, RingInv m.toCore L) ∧ WhyBlocked m := by
  refine h.invariant (I := fun m => (∃ L, RingInv m.toCore L) ∧ WhyBlocked m) (fun m hm => ?_) ?_
  · exact ⟨⟨[], boot_ring hm⟩, fun p hp => absurd (hm.why p) hp⟩
  · rintro m a m' ⟨hring, -⟩ - hrun
    exact ⟨step_ring hring hrun, step_whyBlocked hring hrun⟩

/-! ### The nodes that waking takes -/

theorem slotWakes_finite : {q | SlotWakes c i pids q}.Finite := by
  refine (List.finite_toSet (pids.map (getProcessByPid c))).subset ?_
  rintro q ⟨j, pid, hj, -, hw⟩
  exact List.mem_map.mpr ⟨pid, List.mem_of_getElem? hj, hw.2.1.symm⟩

theorem wakeSlot_serve (h : RingInv c L) : (Kernel.wakeSlot c i pid).map Core.toMemory =
    c.toMemory.serve (List.replicate {q | foundprocess c i ≠ none ∧ Wakes c pid q}.ncard .node) := by
  unfold Kernel.wakeSlot
  by_cases hf : foundprocess c i = none
  · simp [hf, Memory.serve]
  · simp only [hf, if_false, ne_eq, not_false_eq_true, true_and, Option.map_map]
    exact unblockProcess_serve h pid

/-- The loop asks for one node for each process that it wakes. -/
theorem wakeAll_serve (h : RingInv c L) : (Kernel.wakeAll i pids c).map Core.toMemory =
    c.toMemory.serve (List.replicate {q | SlotWakes c i pids q}.ncard .node) := by
  induction pids generalizing c L i with
  | nil => simp [Kernel.wakeAll, SlotWakes, Memory.serve]
  | cons pid pids ih =>
    set first : Set ℕ := {q | foundprocess c i ≠ none ∧ Wakes c pid q} with hfirst
    set all : Set ℕ := {q | SlotWakes c i (pid :: pids) q} with hall
    have hsub : first ⊆ all := fun q hq => ⟨0, pid, rfl, hq.1, hq.2⟩
    rw [← Set.ncard_sdiff_add_ncard_of_subset hsub slotWakes_finite, Nat.add_comm, ← List.replicate_append_replicate]
    refine serve_then (wakeSlot_serve h) fun c₁ hslot => ?_
    obtain ⟨L₁, h₁⟩ := wakeSlot_enters h hslot
    have hrest : {q | SlotWakes c₁ (i + 1) pids q} = all \ first := by
      refine Set.ext fun q => ⟨fun hq => ⟨h₁.toRoused.slotWakes_cons.mpr (Or.inr hq), fun hw => ?_⟩, ?_⟩
      · obtain ⟨-, -, -, -, -, -, hb⟩ := hq
        rw [(h₁.woken q hw).2] at hb
        cases hb
      · rintro ⟨hq, hno⟩
        exact (h₁.toRoused.slotWakes_cons.mp hq).resolve_left hno
    rw [← hrest]
    exact ih h₁.ring

/-! ### Closing -/

/-- The pids that `sem_close` takes out of the queue, from the head on. -/
def Semaphore.toWake (s : Semaphore) : List ℤ := (s.drain s.count s.head).1

/-- Everybody who waited at the semaphore is ready and in the ring, nobody else has changed
its state, and the semaphore is closed with nobody in its queue. -/
structure ClosedFor (m : Machine) (id : ℤ) (k : Kernel) : Prop where
  woken : ∀ q, Inside m (.sem id) q → m.pid q ≠ 1 → k.state q = .ready ∧ isInReadyList k.toCore q = some true
  others : ∀ q, ¬Inside m (.sem id) q → k.state q = m.state q
  empty : (k.sems id).count = 0
  closed : (k.sems id).value = -1

/-- The pid of everybody who waits stands in the queue at a place whose number is the pid of
a process of the table, and the pid of no other blocked process does. -/
structure SlotsFit (m : Machine) (id : ℤ) : Prop where
  waiters : ∀ q, Inside m (.sem id) q → m.pid q ≠ 1 →
    ∃ i : ℕ, (m.sems id).toWake[i]? = some (m.pid q) ∧ ∃ p, InTable m.toCore p ∧ m.pid p = i
  others : ∀ q, InTable m.toCore q → m.state q = .blocked → m.pid q ≠ 1 → ¬Inside m (.sem id) q →
    ∀ i : ℕ, (m.sems id).toWake[i]? = some (m.pid q) → ∀ p, InTable m.toCore p → m.pid p ≠ i

theorem foundprocess_ne_none {pid : ℤ} : foundprocess c pid ≠ none ↔ ∃ p, InTable c p ∧ c.pid p = pid := by
  constructor
  · intro hf
    obtain ⟨i, hi⟩ := Option.ne_none_iff_exists'.mp hf
    obtain ⟨-, hin, hpid⟩ := foundprocess_some hi
    exact ⟨_, hin, hpid⟩
  · rintro ⟨p, hp, hpid⟩ hnone
    exact foundprocess_none hnone hp hpid

/-- Whom the loop wakes. -/
theorem slotWakes_iff (h : TableInv c) (hL : RingInv c L) : SlotWakes c 0 pids q ↔ InTable c q ∧ c.state q = .blocked ∧
    c.pid q ≠ 1 ∧ ∃ i : ℕ, pids[i]? = some (c.pid q) ∧ ∃ p, InTable c p ∧ c.pid p = i := by
  constructor
  · rintro ⟨j, pid, hj, hf, h1, hq, hb⟩
    rw [zero_add] at hf
    rcases getProcessByPid_spec c pid with ⟨hnone, -⟩ | ⟨hin, hpid⟩
    · rw [hq, hnone, hL.null] at hb
      cases hb
    · rw [← hq] at hin hpid
      subst hpid
      exact ⟨hin, hb, h1, j, hj, foundprocess_ne_none.mp hf⟩
  · rintro ⟨hin, hb, h1, j, hj, hp⟩
    refine ⟨j, c.pid q, hj, ?_, h1, (h.pids.getProcessByPid hin).symm, hb⟩
    rw [zero_add]
    exact foundprocess_ne_none.mpr hp

/-- In any run, `sem_close` returns when there is a node for each process that it wakes. -/
theorem semClose_returns (h : boot.Reach (fun _ _ => True) m) (ho : m.IsOpen id) :
    ((m.before a).semClose id).isSome = ((m.before a).toMemory.serve
      (List.replicate {q | SlotWakes (m.before a).toCore 0 (m.sems id).toWake q}.ncard .node)).isSome := by
  obtain ⟨L, hL⟩ := boot_reach_ring h
  have hbefore : RingInv (m.before a).toCore L := hL.congr rfl rfl rfl rfl
  rw [← wakeAll_serve hbefore, Option.isSome_map]
  unfold Kernel.semClose
  dsimp only
  rw [ite_isOpen, if_pos (show (m.before a).IsOpen id from ho), Option.bind_eq_bind]
  show (Option.bind (Kernel.wakeAll 0 (m.sems id).toWake (m.before a).toCore) _).isSome = _
  cases Kernel.wakeAll 0 (m.sems id).toWake (m.before a).toCore with
  | none => rfl
  | some c => rfl

/-- When `sem_close` returns, it has done its work exactly if the pids in the queue stand
at the right places. -/
theorem sem_close_wakes (h : boot.Reach (fun _ _ => True) m) (ho : m.IsOpen id)
    (hrun : (m.before a).semClose id = some (r, k)) : ClosedFor m id k ↔ SlotsFit m id := by
  have htable : TableInv (m.before a).toCore := (boot_reach_table h).supply
  obtain ⟨⟨L, hL⟩, hwhy⟩ := boot_reach_whyBlocked h
  rcases semClose_cases hrun with ⟨hno, -⟩ | ⟨-, -, c, hwake, rfl⟩
  · exact absurd ho hno
  · have hbefore : RingInv (m.before a).toCore L := hL.congr rfl rfl rfl rfl
    obtain ⟨L', henter⟩ := wakeAll_enters hbefore hwake
    have hwakes (q : ℕ) : SlotWakes (m.before a).toCore 0 (m.sems id).toWake q ↔ _ := slotWakes_iff htable hbefore
    have hself := setSem_self (m.before a) id { m.sems id with
      value := -1
      head := ((m.sems id).drain (m.sems id).count (m.sems id).head).2
      count := 0 }
    constructor
    · intro hclosed
      refine ⟨fun q hq h1 => ?_, fun q hin hb h1 hout i hi p hp hpid => ?_⟩
      · have hwoken : SlotWakes (m.before a).toCore 0 (m.sems id).toWake q := by
          by_contra hno
          have hready := (hclosed.woken q hq h1).1
          have hsame : c.state q = m.state q := henter.other q hno
          rw [show c.state q = .ready from hready, hwhy q (by simp [hq.2])] at hsame
          cases hsame
        exact ((hwakes q).mp hwoken).2.2.2
      · have hsame : c.state q = m.state q := hclosed.others q hout
        have hready := (henter.woken q ((hwakes q).mpr ⟨hin, hb, h1, i, hi, p, hp, hpid⟩)).2
        rw [hsame, hb] at hready
        cases hready
    · intro hfit
      refine ⟨fun q hq h1 => ?_, fun q hout => ?_, congrArg Semaphore.count hself,
        congrArg Semaphore.value hself⟩
      · have hwoken := (hwakes q).mpr ⟨hq.1, hwhy q (by simp [hq.2]), h1, hfit.waiters q hq h1⟩
        have hmem : q ∈ L'.map c.processInfo := (henter.procs q).mpr (Or.inr hwoken)
        refine ⟨(henter.woken q hwoken).2, (isInReadyList_eq henter.ring.nodes q).trans ?_⟩
        rw [decide_eq_true hmem]
      · apply henter.other q
        intro hwoken
        obtain ⟨hin, hb, h1, i, hi, p, hp, hpid⟩ := (hwakes q).mp hwoken
        exact hfit.others q hin hb h1 hout i hi p hp hpid

/-- The first of three processes waits at semaphore `0`, and then the second one. -/
def twoWait : Machine := ran (fun _ _ => True) initial
  [create 100, plain .tick, create 200, create 300, plain (.semWait 0), plain (.semWait 0)]

/-- The third process closes it, and the node `900` is free. -/
def afterClose (m : Machine) : Kernel := (((m.before ⟨.semClose 0, 0, [900]⟩).semClose 0).getD (0, m.toKernel)).2

theorem semClose_afterClose (h : ((m.before ⟨.semClose 0, 0, [900]⟩).semClose 0).isSome = true) :
    ∃ r, (m.before ⟨.semClose 0, 0, [900]⟩).semClose 0 = some (r, afterClose m) := by
  obtain ⟨⟨r, k⟩, hk⟩ := Option.isSome_iff_exists.mp h
  rw [afterClose, hk]
  exact ⟨r, rfl⟩

/-- The pid of the second one stands at the place `1`, which is the pid of the first one. -/
theorem sem_close_wakes_second : ClosedFor twoWait 0 (afterClose twoWait) := by
  have hreach : boot.Reach (fun _ _ => True) twoWait := boot_ran (by decide +kernel)
  obtain ⟨r, hrun⟩ := semClose_afterClose (m := twoWait) (by decide +kernel)
  refine (sem_close_wakes hreach (by decide +kernel) hrun).mpr ⟨fun q hq h1 => ?_, fun q hin hb h1 hout => ?_⟩
  · have hplace : ∀ q, InTable twoWait.toCore q → twoWait.why q = some (.sem 0) → twoWait.pid q ≠ 1 →
        (twoWait.sems 0).toWake[1]? = some (twoWait.pid q) := by decide +kernel
    exact ⟨1, hplace q hq.1 hq.2 h1, 101, by decide +kernel, by decide +kernel⟩
  · have hall : ∀ q, InTable twoWait.toCore q → twoWait.state q = .blocked → twoWait.why q = some (.sem 0) := by
      decide +kernel
    exact absurd ⟨hin, hall q hin hb⟩ hout

/-- The second of two processes waits at semaphore `0`. -/
def oneWaits : Machine := ran (fun _ _ => True) initial
  [create 100, plain .tick, create 200, plain .tick, plain (.semWait 0)]

theorem sem_close_wakes_nobody : ¬∀ m a id r k, boot.Reach (fun _ _ => True) m → m.IsOpen id →
    (m.before a).semClose id = some (r, k) → ClosedFor m id k := by
  intro hall
  have hreach : boot.Reach (fun _ _ => True) oneWaits := boot_ran (by decide +kernel)
  obtain ⟨r, hrun⟩ := semClose_afterClose (m := oneWaits) (by decide +kernel)
  have hclosed := hall _ _ _ _ _ hreach (by decide +kernel) hrun
  have hready := (hclosed.woken 201 ⟨by decide +kernel, by decide +kernel⟩ (by decide +kernel)).1
  have hblocked : (afterClose oneWaits).state 201 = .blocked := by decide +kernel
  rw [hblocked] at hready
  cases hready

end BareKernel

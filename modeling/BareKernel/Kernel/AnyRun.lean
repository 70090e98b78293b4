import BareKernel.Kernel.Step
import BareKernel.Process.Shift

/-! The ring in any run of the machine, orderly or not. Every call keeps it a ring of
processes that may run, changes no stack pointer but that of a new process, and lets
only processes of the table and new ones into it. -/

namespace BareKernel

open Function (update)
open Process Links

variable {k k' k₁ : Kernel} {c c' : Core} {m m' : Machine} {a : Action} {call : Call} {L L' : List ℕ}
  {p q n fuel prev cur : ℕ} {pid r id : ℤ} {again : Bool}

theorem PipesOnly.shift (h : PipesOnly k k') (hL : RingInv k.toCore L) :
    Shift k.toCore L k'.toCore L nobody := by
  obtain ⟨answers, live, hcore, hlive⟩ := h.core
  rw [hcore]
  exact hL.same rfl (hlive .node (by simp)) rfl rfl rfl fun _ => id

/-- Two cores of which the second has other blocks for other things than nodes. -/
theorem Process.RingInv.alloc (h : RingInv c L) {answers : List ℕ} {live : Kind → List ℕ}
    (hnode : live .node = c.live .node) :
    Shift c L { c with answers := answers, live := live } L nobody :=
  h.same rfl hnode rfl rfl rfl fun _ => id

/-! ### The sleep list -/

theorem sleepQueueAdd_shift (h : RingInv k.toCore L) (hrun : k.sleepQueueAdd p n = some k') :
    Shift k.toCore L k'.toCore L nobody := by
  rcases sleepQueueAdd_cases hrun with ⟨rest, rfl⟩ | ⟨rest, e, s, rfl⟩
  · exact h.alloc rfl
  · exact h.alloc (Function.update_of_ne (by simp) ..)

theorem freeEntry_shift (h : RingInv k.toCore L) (e : ℕ) :
    Shift k.toCore L (k.freeEntry e).toCore L nobody :=
  h.alloc (Function.update_of_ne (by simp) ..)

theorem sleepTick_shift (h : RingInv k.toCore L) (hrun : Kernel.sleepTick n fuel prev cur k = some k') :
    ∃ L', Shift k.toCore L k'.toCore L' nobody := by
  refine sleepTick_induction
    (R := fun k k' => ∀ L, RingInv k.toCore L → ∃ L', Shift k.toCore L k'.toCore L' nobody)
    (fun _ L h => ⟨L, h.refl⟩) (fun _ _ _ hfirst hrest L h => ?_)
    (fun k prev next e L h => ⟨L, freeEntry_shift (k := k.unlinkEntry prev next) h e⟩)
    (fun k prev next e v c hun L h => ?_) hrun L h
  · obtain ⟨L₁, h₁⟩ := hfirst L h
    obtain ⟨L', h₂⟩ := hrest L₁ h₁.ring
    exact ⟨L', h₁.trans h₂⟩
  · obtain ⟨L₁, h₁⟩ := unblockProcess_shift (c := k.toCore) h hun
    exact ⟨L₁, h₁.trans (freeEntry_shift (k := { k.unlinkEntry prev next with toCore := c }) h₁.ring e)⟩

/-! ### The other calls -/

theorem unblockProcess_roused (h : RingInv c L) (hrun : Process.unblockProcess c pid = some (r, c')) :
    Roused c c' (Wakes c pid) := by
  obtain ⟨L', -, -, hedit⟩ := h.unblock hrun
  refine ⟨by rw [hedit.records], hedit.processesList, fun q hq => ⟨hq.2.2, ?_⟩, fun q hq => ?_⟩
  · rw [hedit.records]
    exact if_pos hq
  · rw [hedit.records]
    exact if_neg hq

theorem wakeAll_shift (h : RingInv c L) {i : ℕ} {pids : List ℤ} (hrun : Kernel.wakeAll i pids c = some c') :
    ∃ L', Shift c L c' L' nobody := by
  have hall : ∀ L, RingInv c L → ∃ L', Shift c L c' L' nobody := by
    refine wakeAll_induction (R := fun c c' => ∀ L, RingInv c L → ∃ L', Shift c L c' L' nobody)
      (fun c L h => ⟨L, h.refl⟩) ?_ (fun c pid v c' hun L h => unblockProcess_shift h hun) hrun
    intro c₁ c₂ c₃ hfirst hrest L h
    obtain ⟨L₁, h₁⟩ := hfirst L h
    obtain ⟨L', h₂⟩ := hrest L₁ h₁.ring
    exact ⟨L', h₁.trans h₂⟩
  exact hall L h

theorem createProcess_shift {args : CreateArgs} (h : RingInv k.toCore L)
    (hrun : k.createProcess args = some (r, k')) :
    ∃ L', Shift k.toCore L k'.toCore L' (NewRecord k.toCore) := by
  rcases createProcess_cases hrun with ⟨-, hnew, answers, live, rfl, hlive⟩ |
    ⟨p, answers, live, c, h0, -, hnew, -, hlive, henter, rfl, -⟩
  · rw [hnew]
    exact ⟨L, h.alloc (hlive .node (by simp))⟩
  · rw [hnew]
    have h₁ : Shift k.toCore L { k.toCore with answers := answers, live := live } L nobody :=
      h.alloc (hlive .node (by simp) (by simp))
    obtain ⟨L', h₂⟩ := enterProcess_shift h₁.ring h0 henter
    obtain ⟨waiting, honly⟩ := openProcess_only { k with toCore := c } k.currentProcess p
    have h₃ : Shift c L' { c with waitingOnChild := waiting } L' nobody :=
      h₂.ring.same rfl rfl rfl rfl rfl fun _ => id
    exact ⟨L', (h₁.trans h₂).quiet (h₃.trans (honly.shift h₃.ring))⟩

theorem exitProcess_shift (h : RingInv k.toCore L) (hrun : k.exitProcess = some k') :
    ∃ L', Shift k.toCore L k'.toCore L' nobody := by
  obtain ⟨r, c, k₂, hremove, honly, rfl⟩ := exitProcess_cases hrun
  obtain ⟨L', h₁⟩ := removeFromProcessesList_shift h hremove
  have h₂ : Shift c L' k₂.toCore L' nobody := honly.shift h₁.ring
  exact ⟨L', (h₁.trans h₂).trans (h₂.ring.same rfl rfl rfl rfl rfl fun _ => id)⟩

theorem wait_shift (h : RingInv k.toCore L) (hrun : k.wait = some (r, k', again)) :
    ∃ L', Shift k.toCore L k'.toCore L' nobody := by
  rcases wait_cases hrun with ⟨-, rfl, -⟩ | ⟨-, -, v, c, hblock, rfl⟩
  · exact ⟨L, h.refl⟩
  · set waiting := update k.waitingOnChild k.currentProcess 1
    have h₁ : Shift k.toCore L { k.toCore with waitingOnChild := waiting } L nobody :=
      h.same rfl rfl rfl rfl rfl fun _ => id
    obtain ⟨L', h₂⟩ := blockProcess_shift h₁.ring hblock
    exact ⟨L', h₁.trans h₂⟩

/-- Every call but `quitCPU` leaves the processor to `current_process`. -/
theorem call_shift (h : RingInv k.toCore L) (hq : call ≠ .quitCPU) (hrun : k.call call = some (r, k', again)) :
    ∃ L', Shift k.toCore L k'.toCore L' (call.births k) := by
  cases call with
  | createProcess args =>
    obtain ⟨⟨v, k₁⟩, hcall, hret⟩ := Option.map_eq_some_iff.mp hrun
    obtain ⟨-, rfl, -⟩ : v = r ∧ k₁ = k' ∧ false = again := by simpa using hret
    exact createProcess_shift h hcall
  | blockProcess pid =>
    obtain ⟨⟨v, c⟩, hcall, hret⟩ := Option.map_eq_some_iff.mp hrun
    obtain ⟨-, rfl, -⟩ : v = r ∧ _ = k' ∧ false = again := by simpa using hret
    exact blockProcess_shift h hcall
  | unblockProcess pid =>
    obtain ⟨⟨v, c⟩, hcall, hret⟩ := Option.map_eq_some_iff.mp hrun
    obtain ⟨-, rfl, -⟩ : v = r ∧ _ = k' ∧ false = again := by simpa using hret
    exact unblockProcess_shift h hcall
  | killProcess pid =>
    obtain ⟨⟨v, c, b⟩, hcall, hret⟩ := Option.map_eq_some_iff.mp hrun
    obtain ⟨-, rfl, -⟩ : v = r ∧ _ = k' ∧ b = again := by simpa using hret
    exact killProcess_shift h hcall
  | exitProcess =>
    obtain ⟨k₁, hcall, hret⟩ := Option.map_eq_some_iff.mp hrun
    obtain ⟨-, rfl, -⟩ : 0 = r ∧ k₁ = k' ∧ true = again := by simpa using hret
    exact exitProcess_shift h hcall
  | quitCPU => exact absurd rfl hq
  | wait => exact wait_shift h hrun
  | semOpen id v =>
    obtain ⟨-, rfl, -⟩ : _ = r ∧ (k.semOpen id v).2 = k' ∧ false = again := by simpa [Kernel.call] using hrun
    obtain ⟨sems, hopen⟩ := semOpen_eq k id v
    rw [hopen]
    exact ⟨L, h.refl⟩
  | semClose id =>
    obtain ⟨⟨v, k₁⟩, hcall, hret⟩ := Option.map_eq_some_iff.mp hrun
    obtain ⟨-, rfl, -⟩ : v = r ∧ k₁ = k' ∧ false = again := by simpa using hret
    rcases semClose_cases hcall with ⟨-, -, rfl⟩ | ⟨-, -, c, hwake, rfl⟩
    · exact ⟨L, h.refl⟩
    · exact wakeAll_shift h hwake
  | semPost id =>
    obtain ⟨⟨v, k₁⟩, hcall, hret⟩ := Option.map_eq_some_iff.mp hrun
    obtain ⟨-, rfl, -⟩ : v = r ∧ k₁ = k' ∧ false = again := by simpa using hret
    rcases semPost_cases hcall with ⟨-, -, rfl⟩ | ⟨-, -, ⟨pid, s, w, c, -, hun, rfl⟩ | ⟨s, -, rfl⟩⟩
    · exact ⟨L, h.refl⟩
    · exact unblockProcess_shift h hun
    · exact ⟨L, h.refl⟩
  | semWait id =>
    rcases semWait_cases hrun with ⟨-, -, rfl, -⟩ | ⟨-, -, -, -, rfl⟩ | ⟨-, -, -, v, c, hblock, rfl⟩
    · exact ⟨L, h.refl⟩
    · exact ⟨L, h.refl⟩
    · exact blockProcess_shift h hblock
  | sysSleep n =>
    rcases sysSleep_cases hrun with ⟨-, rfl, -⟩ | ⟨-, -, k₁, v, c, hadd, hblock, rfl⟩
    · exact ⟨L, h.refl⟩
    · have h₁ := sleepQueueAdd_shift h hadd
      obtain ⟨L', h₂⟩ := blockProcess_shift h₁.ring hblock
      exact ⟨L', h₁.trans h₂⟩
  | createPipe =>
    obtain ⟨-, rfl, -⟩ : _ = r ∧ k.createPipe.2 = k' ∧ false = again := by simpa [Kernel.call] using hrun
    obtain ⟨sems, honly⟩ := createPipe_only k
    exact ⟨L, honly.shift h⟩
  | pipeClose fd =>
    obtain ⟨-, rfl, -⟩ : _ = r ∧ (k.pipeClose fd).2 = k' ∧ false = again := by simpa [Kernel.call] using hrun
    exact ⟨L, (pipeClose_only k fd).shift h⟩
  | tick =>
    obtain ⟨k₁, hcall, hret⟩ := Option.map_eq_some_iff.mp hrun
    obtain ⟨-, rfl, -⟩ : 0 = r ∧ k₁ = k' ∧ true = again := by simpa using hret
    exact sleepTick_shift (k := { k with ticks := (k.ticks + 1) % 2 ^ 64 }) h hcall
  | callScheduler =>
    obtain ⟨-, rfl, -⟩ : 0 = r ∧ k = k' ∧ true = again := by simpa [Kernel.call] using hrun
    exact ⟨L, h.refl⟩

/-! ### Runs -/

/-- The scheduler keeps the ring, whoever is in it. -/
theorem scheduler_ring (h : RingInv c L) {sp sp' : StackPtr} (hrun : scheduler c sp = some (sp', c')) :
    RingInv c' L := by
  by_cases hne : c.readyList = 0
  · have hself : scheduler c sp = some (sp, c) := by rw [scheduler, if_pos hne]
    obtain ⟨-, rfl⟩ : sp = sp' ∧ c = c' := by simpa using hself.symm.trans hrun
    exact h
  · obtain ⟨c₁, hsched, h₁, -⟩ := h.scheduler hne sp
    obtain ⟨-, rfl⟩ : _ = sp' ∧ c₁ = c' := by simpa using hsched.symm.trans hrun
    exact h₁

theorem quitCPU_ring (h : RingInv c L) (hrun : quitCPU c = some (r, c')) : ∃ L', RingInv c' L' := by
  rcases quitCPU_handOver h hrun with ⟨-, rfl⟩ | ⟨-, L', hover, -⟩
  · exact ⟨L, h⟩
  · exact ⟨L', hover.ring⟩

theorem call_ring (h : RingInv k.toCore L) (hrun : k.call call = some (r, k', again)) :
    ∃ L', RingInv k'.toCore L' := by
  by_cases hq : call = .quitCPU
  · subst hq
    obtain ⟨⟨v, c⟩, hcall, hret⟩ := Option.map_eq_some_iff.mp hrun
    obtain ⟨-, rfl, -⟩ : v = r ∧ _ = k' ∧ false = again := by simpa using hret
    exact quitCPU_ring h hcall
  · obtain ⟨L', h'⟩ := call_shift h hq hrun
    exact ⟨L', h'.ring⟩

namespace Machine

theorem boot_ring (h : Boot m) : RingInv m.toCore [] := by
  obtain ⟨L, hL⟩ := (boot_inv h).ready
  obtain rfl := hL.nodes.readyList_eq_zero.mp h.readyList
  exact hL.ringInv

theorem step_ring (h : ∃ L, RingInv m.toCore L) (hrun : m.step a = some m') : ∃ L, RingInv m'.toCore L := by
  obtain ⟨L, hL⟩ := h
  obtain ⟨r, k, again, hcall, hcases⟩ := step_cases hrun
  obtain ⟨L', h'⟩ := call_ring (show RingInv { m.toCore with answers := a.answers } L from hL.congr rfl rfl rfl rfl)
    hcall
  rcases hcases with ⟨-, rfl⟩ | ⟨-, cpu, c, hsched, rfl⟩
  · exact ⟨L', h'⟩
  · exact ⟨L', scheduler_ring h' hsched⟩

/-- The ring is a ring of processes that may run, in every run. -/
theorem boot_reach_ring {ok : Machine → Action → Prop} (h : boot.Reach ok m) : ∃ L, RingInv m.toCore L :=
  h.invariant (I := fun m => ∃ L, RingInv m.toCore L) (fun _ hm => ⟨[], boot_ring hm⟩)
    fun _ _ _ hL _ hrun => step_ring hL hrun

end Machine

end BareKernel
